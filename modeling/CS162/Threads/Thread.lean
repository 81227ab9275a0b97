/-
# Threads and the scheduler

`projects1-3/src/threads/thread.c` and `projects1-3/src/threads/synch.c`,
lines 43-252, with `timer_sleep` and `timer_interrupt` of
`projects1-3/src/devices/timer.c`.

A `Machine` is what the functions of these files work on.  A thread is found by
its address.  The one `elem` of a thread is in at most one list at a time; a list
is the Lean list of its threads.  `code` is what each thread has still to run of
the kernel functions it is in: regions that run without an interrupt or a switch
in between, and after whose last statement the thread is switched out, or
interrupts are on, or the next region goes on with interrupts off.

The `for` of `update_priority` over a lock's waiters is read as `if`.  A failed
assertion, a panic and an unimplemented scheduling policy do not return.
-/

import CS162.Basis.Program
import CS162.Threads.Alarm

namespace CS162
namespace Threads

open CS162.Basis CS162.Lib

/-- `enum thread_status`, for threads that do not exit. -/
inductive ThreadStatus where
  | running
  | ready
  | blocked
deriving DecidableEq

/-- `enum sched_policy`. -/
inductive SchedPolicy where
  | fifo
  | prio
  | fair
  | mlfqs
deriving DecidableEq

/-- The address of a `struct lock`. -/
abbrev LockId := ℕ

/-- A semaphore: the one in a lock, or another. -/
inductive SemaId where
  | lock (l : LockId)
  | other (n : ℕ)
deriving DecidableEq

/-- `struct thread`: what scheduling reads of it. -/
structure Thread where
  status : ThreadStatus
  priority : ℤ
  effectivePriority : ℤ
  wakeTime : ℤ
  donatedTo : Option LockId
  donatedLocks : List LockId

/-- What a thread runs from one switch or interrupt-enabled point to the next. -/
inductive Region where
  /-- `thread_create` up to `allocate_tid`. -/
  | create (priority : ℤ)
  /-- `thread_unblock` in `thread_create`. -/
  | start (t : ThreadId)
  /-- The end of `thread_create`. -/
  | yieldTo (t : ThreadId)
  | yield
  /-- `thread_set_priority`: its three statements that write. -/
  | setPriority (newPriority : ℤ)
  | setEffective (newPriority : ℤ)
  | updatePriority
  /-- A turn of the loop of `sema_down`. -/
  | down (s : SemaId)
  | tryDown (s : SemaId)
  | up (s : SemaId)
  /-- `lock_acquire` up to its `sema_down`. -/
  | acquire (l : LockId)
  /-- `lock_acquire` after its `sema_down`. -/
  | take (l : LockId)
  | release (l : LockId)
  /-- `timer_sleep` up to its `intr_disable`, and from there to `thread_block`. -/
  | sleep (ticks : ℤ)
  | sleepInsert
  /-- What is left of `timer_sleep` after `thread_block`. -/
  | slept
  /-- A `thread_block` of its own, and what is left after it. -/
  | block
  | resumed
  | unblock (t : ThreadId)
deriving DecidableEq

/-- The state of the kernel. -/
structure Machine where
  /-- `active_sched_policy`. -/
  policy : SchedPolicy
  threads : ThreadId → Thread
  /-- `all_list`. -/
  allList : List ThreadId
  /-- `running_thread ()`. -/
  current : ThreadId
  idleThread : ThreadId
  fifoReadyList : List ThreadId
  priorityQueue : List ThreadId
  sleepingList : List ThreadId
  semas : SemaId → Semaphore
  /-- `holder` of each lock. -/
  holder : LockId → Option ThreadId
  ticks : ℤ
  threadTicks : ℕ
  /-- Whether the requests for pages to come are met. -/
  memory : ℕ → Bool
  /-- The address of the next page handed out. -/
  nextThread : ThreadId
  code : ThreadId → List Region
  /-- History: the number of calls of `thread_enqueue`. -/
  enqueues : ℕ
  /-- History: the calls of `thread_enqueue` before each thread's last, and the
  thread's effective priority then. -/
  enqueuedAt : ThreadId → ℕ
  enqueuedEff : ThreadId → ℤ
  /-- History: the number of calls of `schedule`. -/
  switches : ℕ

abbrev Sched := Prog Machine

/-- The effective priority of a thread. -/
def Machine.eff (σ : Machine) (t : ThreadId) : ℤ := (σ.threads t).effectivePriority

/-- Change a thread. -/
def Machine.setThread (σ : Machine) (t : ThreadId) (f : Thread → Thread) : Machine :=
  { σ with threads := Function.update σ.threads t (f (σ.threads t)) }

/-- Change a thread's status. -/
def Machine.setStatus (σ : Machine) (t : ThreadId) (status : ThreadStatus) : Machine :=
  σ.setThread t fun th => { th with status := status }

/-- Change a thread's effective priority. -/
def Machine.setEff (σ : Machine) (t : ThreadId) (p : ℤ) : Machine :=
  σ.setThread t fun th => { th with effectivePriority := p }

/-- Change what a thread has still to run. -/
def Machine.setCode (σ : Machine) (t : ThreadId) (code : List Region) : Machine :=
  { σ with code := Function.update σ.code t code }

/-- Put regions in front of what the running thread has still to run. -/
def pushCode (regions : List Region) : Sched Unit :=
  modify fun σ => σ.setCode σ.current (regions ++ σ.code σ.current)

/-! ### Ready lists -/

/-- `thread_enqueue`. -/
def threadEnqueue (t : ThreadId) : Sched Unit := do
  let σ ← get
  let σ := { σ with
    enqueues := σ.enqueues + 1
    enqueuedAt := Function.update σ.enqueuedAt t σ.enqueues
    enqueuedEff := Function.update σ.enqueuedEff t (σ.eff t) }
  match σ.policy with
  | .fifo => set { σ with fifoReadyList := σ.fifoReadyList ++ [t] }
  | .prio => set { σ with
      priorityQueue := listInsertOrdered (threadPriorityComparator σ.eff) t σ.priorityQueue }
  | _ => halt

/-- `list_remove` of a ready thread, and `list_insert_ordered` into
`priority_queue`. -/
def requeue (t : ThreadId) : Sched Unit := do
  let σ ← get
  if t ∈ σ.fifoReadyList ∨ t ∈ σ.priorityQueue then
    set { σ with
      fifoReadyList := σ.fifoReadyList.erase t
      priorityQueue :=
        listInsertOrdered (threadPriorityComparator σ.eff) t (σ.priorityQueue.erase t) }
  else halt

/-- `thread_unblock`. -/
def threadUnblock (t : ThreadId) : Sched Unit := do
  let σ ← get
  if (σ.threads t).status = .blocked then
    threadEnqueue t
    modify fun σ => σ.setStatus t .ready
  else halt

/-- `thread_schedule_fifo`, `thread_schedule_prio` and their siblings:
`next_thread_to_run`. -/
def nextThreadToRun : Sched ThreadId := do
  let σ ← get
  match σ.policy with
  | .fifo =>
    match σ.fifoReadyList with
    | [] => return σ.idleThread
    | t :: ready =>
      set { σ with fifoReadyList := ready }
      return t
  | .prio =>
    match σ.priorityQueue with
    | [] => return σ.idleThread
    | t :: ready =>
      set { σ with priorityQueue := ready }
      return t
  | _ => halt

/-- `schedule` and `thread_switch_tail`. -/
def schedule : Sched Unit := do
  let next ← nextThreadToRun
  modify fun σ => { σ.setStatus next .running with
    current := next, threadTicks := 0, switches := σ.switches + 1 }

/-- `thread_block`. -/
def threadBlock : Sched Unit := do
  modify fun σ => σ.setStatus σ.current .blocked
  schedule

/-- `thread_yield`. -/
def threadYield : Sched Unit := do
  let σ ← get
  let cur := σ.current
  if cur = σ.idleThread then modify fun σ => σ.setStatus cur .ready
  else
    threadEnqueue cur
    modify fun σ => σ.setStatus cur .ready
  schedule

/-! ### Priorities -/

/-- The lock `t` waits for is held by the thread `waitsOn` gives. -/
def Machine.waitsOn (σ : Machine) (t : ThreadId) : Option ThreadId :=
  (σ.threads t).donatedTo.bind σ.holder

/-- The loop of `recurse_donate`, for at most `fuel` turns. -/
def donateLoop : ℕ → ThreadId → Sched Unit
  | 0, _ => halt
  | fuel + 1, curr => do
    let σ ← get
    match σ.waitsOn curr with
    | none => return ()
    | some next =>
      if σ.eff next < σ.eff curr then
        set (σ.setEff next (σ.eff curr))
        if (σ.threads next).status = .ready then requeue next
        donateLoop fuel next
      else return ()

/-- `recurse_donate`.  Each turn raises another thread to the same priority. -/
def recurseDonate (t : ThreadId) : Sched Unit := do
  let σ ← get
  donateLoop (σ.allList.length + 1) t

/-- The two loops of `update_priority`: the highest of `max` and the priorities
of the first waiters of the locks. -/
def maxPriority (σ : Machine) : List LockId → ℤ → ℤ
  | [], max => max
  | l :: locks, max =>
    match (σ.semas (.lock l)).waiters with
    | [] => maxPriority σ locks max
    | highestWaiter :: _ =>
      maxPriority σ locks (if max < σ.eff highestWaiter then σ.eff highestWaiter else max)

/-- `update_priority`. -/
def updatePriority (t : ThreadId) : Sched Unit := do
  let σ ← get
  set (σ.setEff t (maxPriority σ (σ.threads t).donatedLocks (σ.threads t).priority))
  if (σ.threads t).status = .ready then requeue t

/-- `thread_get_priority`. -/
def threadGetPriority (σ : Machine) : ℤ := (σ.threads σ.current).priority

/-! ### Semaphores and locks -/

/-- `sema_up`, of a thread or of an interrupt handler. -/
def semaUp (intrContext : Bool) (s : SemaId) : Sched Unit := do
  let σ ← get
  match (σ.semas s).up intrContext σ.eff with
  | none => halt
  | some (unblocked, sema) =>
    set { σ with semas := Function.update σ.semas s sema }
    match unblocked with
    | none => return ()
    | some t =>
      threadUnblock t
      if intrContext = false ∧ σ.eff σ.current < σ.eff t then threadYield

/-- A turn of the loop of `sema_down`. -/
def semaDownTurn (s : SemaId) : Sched Unit := do
  let σ ← get
  let (sema, taken) := (σ.semas s).downTurn σ.current
  set { σ with semas := Function.update σ.semas s sema }
  if taken = false then
    pushCode [.down s]
    threadBlock

/-- `sema_try_down`. -/
def semaTryDown (s : SemaId) : Sched Unit :=
  modify fun σ => { σ with semas := Function.update σ.semas s (σ.semas s).tryDown.1 }

/-- `lock_acquire` up to its `sema_down`. -/
def lockAcquire (l : LockId) : Sched Unit := do
  let σ ← get
  if σ.holder l = some σ.current then halt
  else
    set (σ.setThread σ.current fun th => { th with donatedTo := some l })
    if σ.holder l ≠ none then recurseDonate σ.current
    pushCode [.down (.lock l), .take l]

/-- `lock_acquire` after its `sema_down`. -/
def lockTake (l : LockId) : Sched Unit :=
  modify fun σ => { σ.setThread σ.current fun th =>
      { th with donatedTo := none, donatedLocks := th.donatedLocks ++ [l] } with
    holder := Function.update σ.holder l (some σ.current) }

/-- `lock_release`. -/
def lockRelease (l : LockId) : Sched Unit := do
  let σ ← get
  if σ.holder l = some σ.current then
    set { σ.setThread σ.current fun th =>
        { th with donatedLocks := th.donatedLocks.erase l } with
      holder := Function.update σ.holder l none }
    updatePriority σ.current
    semaUp false (.lock l)
  else halt

/-! ### Creating threads -/

/-- `PRI_MIN`, `PRI_DEFAULT` and `PRI_MAX`. -/
def priMin : ℤ := 0
def priDefault : ℤ := 31
def priMax : ℤ := 63

/-- `init_thread`. -/
def initThread (priority : ℤ) : Thread :=
  ⟨.blocked, priority, priority, 0, none, []⟩

/-- `tid_lock`. -/
def tidLock : LockId := 0

/-- `thread_create` up to `allocate_tid`. -/
def threadCreate (priority : ℤ) : Sched Unit := do
  let σ ← get
  let t := σ.nextThread
  let rest := fun n => σ.memory (n + 1)
  if σ.memory 0 = false then set { σ with memory := rest }
  else if priMin ≤ priority ∧ priority ≤ priMax then
    set { σ with
      memory := rest
      nextThread := t + 1
      threads := Function.update σ.threads t (initThread priority)
      code := Function.update σ.code t []
      allList := σ.allList ++ [t] }
    pushCode [.acquire tidLock, .release tidLock, .start t]
  else halt

/-- `thread_unblock` in `thread_create`. -/
def threadStart (t : ThreadId) : Sched Unit := do
  threadUnblock t
  pushCode [.yieldTo t]

/-- The end of `thread_create`. -/
def yieldTo (t : ThreadId) : Sched Unit := do
  let σ ← get
  if σ.eff σ.current < σ.eff t then threadYield

/-! ### The timer -/

/-- `timer_sleep` up to its `intr_disable`. -/
def sleepUntil (ticks : ℤ) : Sched Unit := do
  let σ ← get
  if 0 < ticks then
    set (σ.setThread σ.current fun th => { th with wakeTime := wrap64 (σ.ticks + ticks) })
    pushCode [.sleepInsert]

/-- `timer_sleep` from its `intr_disable` on. -/
def sleepInsert : Sched Unit := do
  modify fun σ => { σ with
    sleepingList := listInsertOrdered (wakeTimeComparator fun t => (σ.threads t).wakeTime)
      σ.current σ.sleepingList }
  pushCode [.slept]
  threadBlock

/-- Unblock each thread in turn. -/
def unblockAll : List ThreadId → Sched Unit
  | [] => return ()
  | t :: ts => do
    threadUnblock t
    unblockAll ts

/-- `TIME_SLICE`. -/
def timeSlice : ℕ := 4

/-- `thread_tick`, and the `thread_yield` it asks for on return from the
interrupt. -/
def threadTick : Sched Unit := do
  let σ ← get
  let preempt := σ.policy = .prio ∧ ∃ rdy ∈ σ.priorityQueue.head?, σ.eff σ.current < σ.eff rdy
  set { σ with threadTicks := σ.threadTicks + 1 }
  if preempt ∨ timeSlice ≤ σ.threadTicks + 1 then threadYield

/-- `timer_interrupt`. -/
def timerTick : Sched Unit := do
  let σ ← get
  let now := wrap64 (σ.ticks + 1)
  let woken := wakeSleepers (fun t => (σ.threads t).wakeTime) now σ.sleepingList
  set { σ with ticks := now, sleepingList := woken.2 }
  unblockAll woken.1
  threadTick

/-! ### Running -/

/-- What a region does, run by the running thread. -/
def execute : Region → Sched Unit
  | .create priority => threadCreate priority
  | .start t => threadStart t
  | .yieldTo t => yieldTo t
  | .yield => threadYield
  | .setPriority p =>
    modify fun σ => σ.setThread σ.current fun th => { th with priority := p }
  | .setEffective p => modify fun σ => σ.setEff σ.current p
  | .updatePriority => do
    let σ ← get
    updatePriority σ.current
  | .down s => semaDownTurn s
  | .tryDown s => semaTryDown s
  | .up s => semaUp false s
  | .acquire l => lockAcquire l
  | .take l => lockTake l
  | .release l => lockRelease l
  | .sleep ticks => sleepUntil ticks
  | .sleepInsert => sleepInsert
  | .slept => return ()
  | .block => do
    pushCode [.resumed]
    threadBlock
  | .resumed => return ()
  | .unblock t => threadUnblock t

/-- What a thread may call. -/
inductive Call where
  | create (priority : ℤ)
  | yield
  | setPriority (newPriority : ℤ)
  | semaDown (n : ℕ)
  | semaTryDown (n : ℕ)
  | semaUp (n : ℕ)
  | lockAcquire (l : LockId)
  | lockRelease (l : LockId)
  | sleep (ticks : ℤ)
  | block
  | unblock (t : ThreadId)
deriving DecidableEq

/-- The regions of a call. -/
def Call.regions : Call → List Region
  | .create priority => [.create priority]
  | .yield => [.yield]
  | .setPriority p => [.setPriority p, .setEffective p, .updatePriority]
  | .semaDown n => [.down (.other n)]
  | .semaTryDown n => [.tryDown (.other n)]
  | .semaUp n => [.up (.other n)]
  | .lockAcquire l => [.acquire l]
  | .lockRelease l => [.release l]
  | .sleep ticks => [.sleep ticks]
  | .block => [.block]
  | .unblock t => [.unblock t]

/-- Who may call what: `idle` only blocks. -/
def Machine.MayCall (σ : Machine) (c : Call) : Prop :=
  σ.current = σ.idleThread → c = .block

/-- `thread_unblock` is called for a thread that called `thread_block` itself,
other than `idle`. -/
def Machine.MayRun (σ : Machine) (r : Region) : Prop :=
  ∀ t, r = .unblock t → t ≠ σ.idleThread ∧ ∃ rest, σ.code t = .resumed :: rest

/-- Interrupts are on before the region. -/
def Region.interruptible : Region → Bool
  | .down _ | .take _ | .slept | .resumed | .block | .unblock _ => false
  | _ => true

/-- What happens next. -/
inductive Event where
  /-- The running thread, out of the kernel, makes a call. -/
  | call (c : Call)
  /-- The running thread runs its next region. -/
  | run (r : Region)
  /-- A timer interrupt. -/
  | tick
  /-- The interrupt handler of a device calls `sema_up`. -/
  | deviceUp (n : ℕ)

/-- Interrupts are on. -/
def Machine.Interruptible (σ : Machine) : Prop :=
  ∀ r ∈ (σ.code σ.current).head?, r.interruptible = true

inductive MachineStep : Machine → Event → Machine → Prop where
  | call {σ : Machine} (c : Call) :
      σ.code σ.current = [] → σ.MayCall c →
      MachineStep σ (.call c) (σ.setCode σ.current c.regions)
  | run {σ σ' : Machine} (r : Region) (rest : List Region) :
      σ.code σ.current = r :: rest → σ.MayRun r →
      (execute r).run (σ.setCode σ.current rest) = some ((), σ') → MachineStep σ (.run r) σ'
  | tick {σ σ' : Machine} :
      σ.Interruptible → timerTick.run σ = some ((), σ') → MachineStep σ .tick σ'
  | deviceUp {σ σ' : Machine} (n : ℕ) :
      σ.Interruptible → (semaUp true (.other n)).run σ = some ((), σ') →
      MachineStep σ (.deviceUp n) σ'

/-- The kernel as `thread_start` leaves it: `main` runs, `idle` is ready and in
no list.  `values` are the values of the semaphores other than locks'. -/
def boot (policy : SchedPolicy) (values : ℕ → UInt32) (memory : ℕ → Bool) : Machine where
  policy := policy
  threads t := if t = 0 then { initThread priDefault with status := .running }
    else if t = 1 then { initThread priMin with status := .ready }
    else initThread priMin
  allList := [0, 1]
  current := 0
  idleThread := 1
  fifoReadyList := []
  priorityQueue := []
  sleepingList := []
  semas
    | .lock _ => semaInit 1
    | .other n => semaInit (values n)
  holder _ := none
  ticks := 0
  threadTicks := 0
  memory := memory
  nextThread := 2
  code _ := []
  enqueues := 0
  enqueuedAt _ := 0
  enqueuedEff _ := 0
  switches := 0

/-- The states reached by steps that meet the condition `ok` where they are
taken. -/
inductive Reached (policy : SchedPolicy) (ok : Machine → Event → Prop) : Machine → Prop where
  | boot (values : ℕ → UInt32) (memory : ℕ → Bool) : Reached policy ok (boot policy values memory)
  | step {σ σ' : Machine} {e : Event} :
      Reached policy ok σ → ok σ e → MachineStep σ e σ' → Reached policy ok σ'

/-! ### Running computed -/

instance (σ : Machine) (c : Call) : Decidable (σ.MayCall c) := inferInstanceAs (Decidable (_ → _))

instance (σ : Machine) (r : Region) : Decidable (σ.MayRun r) :=
  match r with
  | .unblock t => decidable_of_iff (t ≠ σ.idleThread ∧ (σ.code t).head? = some .resumed) <| by
      unfold Machine.MayRun
      cases hcode : σ.code t <;> simp [hcode]
  | .create _ | .start _ | .yieldTo _ | .yield | .setPriority _ | .setEffective _
  | .updatePriority | .down _ | .tryDown _ | .up _ | .acquire _ | .take _ | .release _ | .sleep _
  | .sleepInsert | .slept | .block | .resumed => isTrue fun _ heq => nomatch heq

instance (σ : Machine) : Decidable σ.Interruptible :=
  inferInstanceAs (Decidable (∀ r ∈ (σ.code σ.current).head?, r.interruptible = true))

/-- The state after an event, if it can happen. -/
def Machine.after (σ : Machine) : Event → Option Machine
  | .call c =>
    if σ.code σ.current = [] ∧ σ.MayCall c then some (σ.setCode σ.current c.regions) else none
  | .run r =>
    match σ.code σ.current with
    | [] => none
    | r' :: rest =>
      if r' = r ∧ σ.MayRun r then ((execute r).run (σ.setCode σ.current rest)).map Prod.snd
      else none
  | .tick => if σ.Interruptible then (timerTick.run σ).map Prod.snd else none
  | .deviceUp n =>
    if σ.Interruptible then ((semaUp true (.other n)).run σ).map Prod.snd else none

/-- The state after events that meet the condition `ok`, if they can happen. -/
def Machine.afterAll (ok : Machine → Event → Bool) : Machine → List Event → Option Machine
  | σ, [] => some σ
  | σ, e :: es => if ok σ e then (σ.after e).bind fun σ' => σ'.afterAll ok es else none

/-- The executable step is a step. -/
theorem Machine.after_step {σ σ' : Machine} {e : Event} (h : σ.after e = some σ') :
    MachineStep σ e σ' := by
  have hrun : ∀ {m : Sched Unit} {τ : Machine}, (m.run τ).map Prod.snd = some σ' →
      m.run τ = some ((), σ') := fun {m τ} hmap => by
    obtain ⟨⟨⟨⟩, σ₁⟩, hm, rfl⟩ := Option.map_eq_some_iff.1 hmap
    exact hm
  cases e with
  | call c =>
    simp only [Machine.after, Option.ite_none_right_eq_some] at h
    obtain ⟨⟨hcode, hmay⟩, heq⟩ := h
    cases heq
    exact .call c hcode hmay
  | run r =>
    cases hcode : σ.code σ.current with
    | nil => simp [Machine.after, hcode] at h
    | cons r' rest =>
      simp only [Machine.after, hcode, Option.ite_none_right_eq_some] at h
      obtain ⟨⟨rfl, hmay⟩, hmap⟩ := h
      exact .run r' rest hcode hmay (hrun hmap)
  | tick =>
    simp only [Machine.after, Option.ite_none_right_eq_some] at h
    exact .tick h.1 (hrun h.2)
  | deviceUp n =>
    simp only [Machine.after, Option.ite_none_right_eq_some] at h
    exact .deviceUp n h.1 (hrun h.2)

theorem Reached.afterAll {policy : SchedPolicy} {ok : Machine → Event → Bool}
    {ok' : Machine → Event → Prop} {σ σ' : Machine} {es : List Event} (h : Reached policy ok' σ)
    (hok : ∀ σ e, Reached policy ok' σ → ok σ e = true → ok' σ e)
    (hrun : σ.afterAll ok es = some σ') : Reached policy ok' σ' := by
  induction es generalizing σ with
  | nil => exact Option.some.inj hrun ▸ h
  | cons e es ih =>
    simp only [Machine.afterAll, Option.ite_none_right_eq_some, Option.bind_eq_some_iff] at hrun
    obtain ⟨hstep, σ₁, hafter, hrest⟩ := hrun
    exact ih (h.step (hok σ e h hstep) (Machine.after_step hafter)) hrest

end Threads
end CS162

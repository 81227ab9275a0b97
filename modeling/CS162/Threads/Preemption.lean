/-
# The running thread has the highest priority

`projects1-3/src/threads/thread.c`, lines 190-232 and 404-416, and
`projects1-3/src/threads/synch.c`, lines 106-131 and 239-252.

A call that makes another thread the one to run has to yield to it.
`thread_create`, `sema_up` and the timer do (`execute_strict`,
`timerTick_strict`).  `thread_set_priority` does not: its `thread_yield;` is an
expression without a call (`not_strictPriority`).  `lock_release` can lower its
caller's priority below that of a ready thread and only yields to the waiter it
unblocks; and neither a device's `sema_up` nor `thread_unblock` yields.  Where
none of this brings a ready thread above the running one, none ever is
(`strictPriority_of_preempting`).
-/

import CS162.Threads.ReadyQueue
import CS162.Threads.Regions

namespace CS162
namespace Threads

open CS162.Basis CS162.Lib

/-- No ready thread has a higher priority than the running one. -/
def StrictPriority (σ : Machine) : Prop :=
  ∀ u, σ.status u = .ready → σ.eff u ≤ σ.eff σ.current

/-- The running thread is neither between the assignments of
`thread_set_priority` and its `update_priority`, nor at the end of
`thread_create`.  It is at neither place when a call returns. -/
def Machine.Returned (σ : Machine) : Prop :=
  (σ.code σ.current).head? ≠ some .updatePriority ∧
    ∀ t, (σ.code σ.current).head? ≠ some (.yieldTo t)

/-- The step brings no ready thread above the running one unless it yields. -/
def Preempting (σ : Machine) : Event → Prop
  | .call (.setPriority p) => priMin ≤ p
  | .run .updatePriority => ∀ u, σ.status u = .ready →
      σ.Covered σ.current (σ.threads σ.current).donatedLocks (σ.eff u)
  | .run (.release l) =>
    (∀ u, σ.status u = .ready →
      σ.Covered σ.current ((σ.threads σ.current).donatedLocks.erase l) (σ.eff u)) ∨
    ∃ w ∈ σ.waiters (.lock l),
      ¬σ.Covered σ.current ((σ.threads σ.current).donatedLocks.erase l) (σ.eff w)
  | .run (.unblock t) => σ.eff t ≤ σ.eff σ.current
  | .deviceUp n => ∀ w ∈ (σ.waiters (.other n)).head?, σ.eff w ≤ σ.eff σ.current
  | _ => True

/-! ### No priority is below `PRI_MIN` -/

structure Floored (σ : Machine) : Prop where
  priority : ∀ t, priMin ≤ (σ.threads t).priority
  eff : ∀ t, priMin ≤ σ.eff t
  code : ∀ t p, .setPriority p ∈ σ.code t ∨ .setEffective p ∈ σ.code t → priMin ≤ p

theorem floored_code {r : Region} {pushed rest : List Region} (hpushed : r.Pushes pushed) {p : ℤ}
    (h : .setPriority p ∈ pushed ++ rest ∨ .setEffective p ∈ pushed ++ rest) :
    .setPriority p ∈ rest ∨ .setEffective p ∈ rest := by
  have hnone : .setPriority p ∉ pushed ∧ .setEffective p ∉ pushed := by
    cases r with
    | create q => rcases hpushed with rfl | ⟨t, rfl⟩ <;> simp
    | down s => rcases hpushed with rfl | rfl <;> simp
    | sleep ticks => rcases hpushed with rfl | rfl <;> simp
    | start _ | acquire _ | sleepInsert | block | yieldTo _ | yield | setPriority _
    | setEffective _ | updatePriority | tryDown _ | up _ | take _ | release _ | slept | resumed
    | unblock _ =>
      cases (hpushed : pushed = _)
      simp
  simpa only [List.mem_append, hnone.1, hnone.2, false_or] using h

/-- What a region does to the priorities keeps them from falling below. -/
theorem Region.Reprices.floored {σ σ' : Machine} {r : Region} (h : r.Reprices σ σ')
    (hpriority : ∀ t, priMin ≤ (σ.threads t).priority) (heff : ∀ t, priMin ≤ σ.eff t)
    (hset : ∀ p, r = .setPriority p ∨ r = .setEffective p → priMin ≤ p) :
    (∀ t, priMin ≤ (σ'.threads t).priority) ∧ ∀ t, priMin ≤ σ'.eff t := by
  have hsame : ∀ {τ : Machine}, SamePriorities τ σ' → (∀ t, priMin ≤ (τ.threads t).priority) →
      (∀ t, priMin ≤ τ.eff t) →
      (∀ t, priMin ≤ (σ'.threads t).priority) ∧ ∀ t, priMin ≤ σ'.eff t :=
    fun hs hp he => ⟨fun t => hs.priority t ▸ hp t, fun t => hs.eff t ▸ he t⟩
  have hthread : ∀ (f : Thread → Thread) t, priMin ≤ (f (σ.threads σ.current)).priority →
      priMin ≤ ((σ.setThread σ.current f).threads t).priority := fun f t hf => by
    rcases Classical.em (t = σ.current) with rfl | ht
    · simpa [Machine.setThread] using hf
    · simpa [Machine.setThread, ht] using hpriority t
  have hefft : ∀ (f : Thread → Thread) t, priMin ≤ (f (σ.threads σ.current)).effectivePriority →
      priMin ≤ (σ.setThread σ.current f).eff t := fun f t hf => by
    rw [eff_setThread]
    split
    · exact hf
    · exact heff t
  cases r with
  | create p =>
    rcases h with hs | ⟨hmin, -, hs⟩
    · exact hsame hs hpriority heff
    · have hnew : ∀ t, (σ.create p).threads t = initThread p ∨
          (σ.create p).threads t = σ.threads t := fun t => by
        rcases Classical.em (t = σ.nextThread) with rfl | ht
        · exact .inl (by simp [Machine.create, Machine.push, Machine.setCode])
        · exact .inr (by simp [Machine.create, Machine.push, Machine.setCode, ht])
      refine hsame hs (fun t => ?_) fun t => ?_
      · rcases hnew t with heq | heq <;> rw [heq]
        · exact hmin
        · exact hpriority t
      · unfold Machine.eff
        rcases hnew t with heq | heq <;> rw [heq]
        · exact hmin
        · exact heff t
  | setPriority p =>
    exact hsame h (fun t => hthread _ t (hset p (.inl rfl))) fun t => hefft _ t (heff _)
  | setEffective p =>
    exact hsame h (fun t => hthread _ t (hpriority _)) fun t => hefft _ t (hset p (.inr rfl))
  | updatePriority =>
    have hle : priMin ≤ σ.maxPriority σ.current :=
      (hpriority σ.current).trans ((covered_iff σ _ _ _).1 (.inl le_rfl))
    exact hsame h (fun t => hthread _ t (hpriority _)) fun t => hefft _ t hle
  | acquire l =>
    obtain ⟨-, σ₁, hdonate, hs⟩ := h
    have hto := hthread (fun th => { th with donatedTo := some l })
    have hto' := hefft (fun th => { th with donatedTo := some l })
    rcases hdonate with ⟨-, rfl⟩ | ⟨-, hloop⟩
    · exact hsame hs (fun t => hto t (hpriority _)) fun t => hto' t (heff _)
    · obtain ⟨-, ⟨hp, he⟩, -⟩ := donateLoop_rule (p := (σ.donateTo l).eff σ.current)
        (I := fun _ τ => (∀ t, priMin ≤ (τ.threads t).priority) ∧ ∀ t, priMin ≤ τ.eff t)
        (fun τ _ next hI _ _ _ _ => by
          refine ⟨fun t => ?_, fun t => ?_⟩
          · rw [priority_raise]
            exact hI.1 t
          · rw [eff_raise]
            split
            · exact hto' _ (heff _)
            · exact hI.2 t)
        hloop rfl ⟨fun t => hto t (hpriority _), fun t => hto' t (heff _)⟩
      exact hsame hs hp he
  | release l =>
    obtain ⟨-, sema, -, hs⟩ := h
    have hle : priMin ≤ σ.left l :=
      (hpriority σ.current).trans ((covered_iff σ _ _ _).1 (.inl le_rfl))
    refine hsame hs (fun t => ?_) fun t => ?_
    · show priMin ≤ ((σ.release l).threads t).priority
      rcases Classical.em (t = σ.current) with rfl | ht
      · simpa [Machine.release, Machine.setEff, Machine.drop, Machine.setThread]
          using hpriority σ.current
      · simpa [Machine.release, Machine.setEff, Machine.drop, Machine.setThread, ht]
          using hpriority t
    · show priMin ≤ (σ.release l).eff t
      rw [eff_release]
      split
      · exact hle
      · exact heff t
  | take l =>
    have htake := hthread fun th =>
      { th with donatedTo := none, donatedLocks := th.donatedLocks ++ [l] }
    have htake' := hefft fun th =>
      { th with donatedTo := none, donatedLocks := th.donatedLocks ++ [l] }
    exact hsame h (fun t => htake t (hpriority _)) fun t => htake' t (heff _)
  | down s =>
    rcases h with ⟨-, hs⟩ | ⟨-, hs⟩
    · exact hsame hs hpriority heff
    · exact hsame hs hpriority heff
  | up s =>
    obtain ⟨sema, -, hs⟩ := h
    exact hsame hs hpriority heff
  | tryDown s => exact hsame h hpriority heff
  | start _ | yieldTo _ | yield | sleep _ | sleepInsert | slept | block | resumed | unblock _ =>
    exact hsame (τ := σ) h hpriority heff

/-- No step takes a priority below `PRI_MIN`. -/
theorem Floored.step {σ σ' : Machine} {e : Event} (h : Floored σ) (hplaced : Placed σ)
    (hok : Preempting σ e) (hs : MachineStep σ e σ') : Floored σ' := by
  cases hs with
  | call c hnil _ =>
    refine ⟨h.priority, h.eff, fun t p hp => ?_⟩
    rcases Classical.em (t = σ.current) with rfl | ht
    · simp only [Machine.setCode, Function.update_self] at hp
      cases c with
      | setPriority q =>
        have hpq : p = q := by simpa [Call.regions] using hp
        exact hpq ▸ hok
      | create _ | yield | semaDown _ | semaTryDown _ | semaUp _ | lockAcquire _ | lockRelease _
      | sleep _ | block | unblock _ => simp [Call.regions] at hp
    · simp only [Machine.setCode, Function.update_of_ne ht] at hp
      exact h.code t p hp
  | run r rest hcode _ hrun =>
    have hpop := hplaced.pop hcode
    obtain ⟨hpriority, heff⟩ := (execute_priorities hpop hrun).floored h.priority h.eff
      fun p hp => h.code σ.current p (by
        rw [hcode]
        rcases hp with rfl | rfl
        · exact .inl List.mem_cons_self
        · exact .inr List.mem_cons_self)
    obtain ⟨pushed, hpushed, hself, hother⟩ := execute_code hpop hrun
    refine ⟨hpriority, heff, fun t p hp => ?_⟩
    rcases Classical.em (t = σ.current) with rfl | ht
    · rw [show σ'.code σ.current = _ from hself, show (σ.setCode σ.current rest).code
        (σ.setCode σ.current rest).current = rest by simp [Machine.setCode]] at hp
      refine h.code σ.current p ?_
      rw [hcode]
      exact (floored_code hpushed hp).imp (List.mem_cons_of_mem r) (List.mem_cons_of_mem r)
    · rw [hother t ht] at hp
      simp only [Machine.setCode, Function.update_of_ne ht] at hp
      exact h.code t p hp
  | tick _ hrun =>
    have hsame := timerTick_priorities hplaced hrun
    refine ⟨fun t => hsame.priority t ▸ h.priority t, fun t => hsame.eff t ▸ h.eff t, ?_⟩
    rw [timerTick_code hplaced hrun]
    exact h.code
  | deviceUp n _ hrun =>
    obtain ⟨sema, -, hsame⟩ := semaUp_priorities hplaced.listed.implemented hrun
    refine ⟨fun t => hsame.priority t ▸ h.priority t, fun t => hsame.eff t ▸ h.eff t, ?_⟩
    rw [semaUp_code hplaced.listed.implemented hrun]
    exact h.code

/-! ### Who is ready -/

/-- Once `schedule` has chosen, nobody ready is above the thread that runs. -/
theorem Machine.Chosen.strict {σ : Machine} (h : σ.Chosen) (hqueue : QueueOrdered σ)
    (heff : ∀ t, priMin ≤ σ.eff t) : StrictPriority σ := by
  intro u hu
  rcases Classical.em (u = σ.idleThread) with rfl | hidle
  · rw [hqueue.idle]
    exact heff σ.current
  · exact (h u hu hidle).1

theorem QueueOrdered.yield_strict {σ : Machine} (h : QueueOrdered σ) (hplaced : Placed σ)
    (hprio : σ.policy = .prio) (heff : ∀ t, priMin ≤ σ.eff t) : StrictPriority σ.yield := by
  obtain ⟨hqueue, hchosen⟩ := h.yield hplaced hprio
  exact hchosen.strict hqueue fun t => (samePriorities_yield σ).eff t ▸ heff t

theorem QueueOrdered.block_strict {σ : Machine} (h : QueueOrdered σ) (hprio : σ.policy = .prio)
    (hplaced : Placed σ.block) (heff : ∀ t, priMin ≤ σ.eff t) : StrictPriority σ.block := by
  obtain ⟨hqueue, hchosen⟩ := h.block hprio hplaced
  exact hchosen.strict hqueue fun t => (samePriorities_block σ).eff t ▸ heff t

theorem ready_of_unblock {σ : Machine} {t u : ThreadId} (h : (σ.unblock t).status u = .ready) :
    u = t ∨ σ.status u = .ready := by
  rw [Machine.unblock, status_setStatus, status_enqueue] at h
  split at h
  · rename_i hut
    exact .inl hut
  · exact .inr h

/-- A thread that becomes ready, below the running one. -/
theorem StrictPriority.unblock {σ : Machine} (h : StrictPriority σ) {t : ThreadId}
    (ht : σ.eff t ≤ σ.eff σ.current) : StrictPriority (σ.unblock t) := by
  intro u hu
  have hsame := samePriorities_unblock σ t
  show (σ.unblock t).eff u ≤ (σ.unblock t).eff σ.current
  rw [hsame.eff, hsame.eff]
  rcases ready_of_unblock hu with rfl | hu
  · exact ht
  · exact h u hu

/-- `sema_up` by a thread: it yields where the waiter it unblocks is above it. -/
theorem semaUp_strict {σ σ' : Machine} (hplaced : Placed σ) (hqueue : QueueOrdered σ)
    (hprio : σ.policy = .prio) (heff : ∀ t, priMin ≤ σ.eff t) {s : SemaId}
    (h : StrictPriority σ ∨ ∃ w ∈ σ.waiters s, σ.eff σ.current < σ.eff w)
    (hrun : (semaUp false s).run σ = some ((), σ')) : StrictPriority σ' := by
  obtain ⟨unblocked, sema, hup, -, hcases⟩ := hplaced.semaUp_cases hrun
  rcases hcases with ⟨rfl, rfl⟩ | ⟨t, rfl, -, hblocked, hunblocked, rfl⟩
  · refine h.resolve_right ?_
    rintro ⟨w, hw, -⟩
    have hnil : σ.waiters s = [] := (Semaphore.up_cases hup).2.2 rfl
    rw [hnil] at hw
    cases hw
  · have hset := hqueue.setSema s sema
    split
    · have hunblock := hset.unblock hprio
        (hplaced.listed.not_mem_priorityQueue hprio (t := t) (by simp [hblocked]))
      exact hunblock.yield_strict hunblocked hprio fun u =>
        (samePriorities_unblock (σ.setSema s sema) t).eff u ▸ heff u
    · rename_i hbelow
      have hle : σ.eff t ≤ σ.eff σ.current := not_lt.1 fun hlt => hbelow ⟨rfl, hlt⟩
      have hstrict : StrictPriority (σ.setSema s sema) := h.resolve_right fun ⟨w, hw, hlt⟩ =>
        absurd hlt (not_lt.2 ((Semaphore.up_max hup w hw).trans hle))
      exact hstrict.unblock hle

/-- `timer_interrupt` yields where a thread it unblocks is above the running one. -/
theorem timerTick_strict {σ σ' : Machine} (hplaced : Placed σ) (hqueue : QueueOrdered σ)
    (hprio : σ.policy = .prio) (heff : ∀ t, priMin ≤ σ.eff t)
    (hrun : timerTick.run σ = some ((), σ')) : StrictPriority σ' := by
  obtain ⟨σ₁, hplaced₁, ⟨hqueue₁, hpolicy₁, hsame⟩, rfl⟩ := hplaced.timerTick_rule
    (I := fun τ => QueueOrdered τ ∧ τ.policy = .prio ∧ SamePriorities σ τ)
    (fun τ t hτ hI hblocked => ⟨hI.1.unblock hI.2.1
      (hτ.listed.not_mem_priorityQueue hI.2.1 (by simp [hblocked])), hI.2.1,
      hI.2.2.trans (samePriorities_unblock τ t)⟩)
    ⟨hqueue.congr ⟨rfl, rfl, fun _ _ => rfl, fun _ => .inl rfl, rfl, rfl, rfl⟩, hprio,
      samePriorities_of_threads rfl rfl rfl rfl rfl⟩ hrun
  have heff₁ : ∀ t, priMin ≤ σ₁.eff t := fun t => hsame.eff t ▸ heff t
  have hcount : QueueOrdered σ₁.countTick :=
    hqueue₁.congr ⟨rfl, rfl, fun _ _ => rfl, fun _ => .inl rfl, rfl, rfl, rfl⟩
  split
  · exact hcount.yield_strict hplaced₁.countTick hpolicy₁ heff₁
  · rename_i hpreempts
    intro u hu
    show σ₁.eff u ≤ σ₁.eff σ₁.current
    rcases Classical.em (u = σ₁.idleThread) with rfl | hidle
    · rw [hqueue₁.idle]
      exact heff₁ _
    · have hmem := (hplaced₁.listed.mem_priorityQueue hpolicy₁ u).2 ⟨hu, hidle⟩
      have hordered := hqueue₁.ordered
      -- the front of the queue does not preempt
      have hfront : ∀ rdy ∈ σ₁.priorityQueue.head?, σ₁.eff rdy ≤ σ₁.eff σ₁.current :=
        fun rdy hrdy => not_lt.1 fun hlt => hpreempts (.inl ⟨hpolicy₁, rdy, hrdy, hlt⟩)
      cases hlist : σ₁.priorityQueue with
      | nil =>
        rw [hlist] at hmem
        cases hmem
      | cons rdy queue =>
        rw [hlist] at hmem hordered hfront
        rcases List.mem_cons.1 hmem with rfl | hmem
        · exact hfront u rfl
        · exact ((List.pairwise_cons.1 hordered).1 u hmem).1.trans (hfront rdy rfl)

/-! ### Regions -/

/-- No ready thread is above the running one, unless this has still to update its
priority or to yield to that thread. -/
def AlmostStrict (σ : Machine) : Prop :=
  ∀ u, σ.status u = .ready → σ.eff u ≤ σ.eff σ.current ∨
    (σ.code σ.current).head? = some .updatePriority ∨
    (σ.code σ.current).head? = some (.yieldTo u)

theorem StrictPriority.almost {σ : Machine} (h : StrictPriority σ) : AlmostStrict σ :=
  fun u hu => .inl (h u hu)

theorem AlmostStrict.strict {σ : Machine} (h : AlmostStrict σ) (hreturned : σ.Returned) :
    StrictPriority σ := fun u hu =>
  (h u hu).resolve_right fun hor => hor.elim hreturned.1 (hreturned.2 u)

theorem StrictPriority.congr {σ σ' : Machine} (h : StrictPriority σ)
    (hcurrent : σ'.current = σ.current) (hstatus : ∀ t, σ'.status t = σ.status t)
    (heff : ∀ t, σ'.eff t = σ.eff t) : StrictPriority σ' := fun u hu => by
  rw [heff, heff, hcurrent]
  exact h u (hstatus u ▸ hu)

/-- `sema_up` by a device. -/
theorem AlmostStrict.deviceUp {σ σ' : Machine} (h : AlmostStrict σ) (hplaced : Placed σ)
    {s : SemaId} (hfirst : ∀ w ∈ (σ.waiters s).head?, σ.eff w ≤ σ.eff σ.current)
    (hrun : (semaUp true s).run σ = some ((), σ')) : AlmostStrict σ' := by
  obtain ⟨unblocked, sema, hup, -, hcases⟩ := hplaced.semaUp_cases hrun
  rcases hcases with ⟨-, rfl⟩ | ⟨t, rfl, -, -, -, rfl⟩
  · exact h
  · rw [if_neg (by simp)]
    have hhead : (σ.waiters s).head? = some t := by
      unfold Semaphore.up sortWaiters at hup
      unfold Machine.waiters
      cases hw : (σ.semas s).waiters with
      | nil => simp [hw] at hup
      | cons w ws =>
        simp only [hw, if_true, Option.some.injEq, Prod.mk.injEq] at hup
        exact congrArg some hup.1
    intro u hu
    have hsame := samePriorities_unblock (σ.setSema s sema) t
    show ((σ.setSema s sema).unblock t).eff u ≤ ((σ.setSema s sema).unblock t).eff σ.current ∨ _
    rw [hsame.eff, hsame.eff]
    rcases ready_of_unblock hu with rfl | hu
    · exact .inl (hfirst u hhead)
    · exact h u hu

/-- `recurse_donate` raises nobody above the thread that donates. -/
theorem lockAcquire_strict {σ σ' : Machine} (h : StrictPriority σ) {l : LockId}
    (hrun : (lockAcquire l).run σ = some ((), σ')) : StrictPriority σ' := by
  obtain ⟨-, σ₁, hdonate, rfl⟩ := lockAcquire_cases hrun
  have hto : StrictPriority (σ.donateTo l) := by
    refine h.congr rfl (fun t => ?_) fun t => ?_
    · exact (sameLists_setThread (σ := σ) (t := σ.current)
        (f := fun th => { th with donatedTo := some l }) rfl).status t
    · exact eff_setThread_of_eq (f := fun th => { th with donatedTo := some l }) rfl t
  rcases hdonate with ⟨-, rfl⟩ | ⟨-, hloop⟩
  · exact hto
  · obtain ⟨-, ⟨hcurrent, heff, hready⟩, -⟩ := donateLoop_rule (p := (σ.donateTo l).eff σ.current)
      (I := fun _ τ => τ.current = σ.current ∧ τ.eff σ.current = (σ.donateTo l).eff σ.current ∧
        ∀ u, τ.status u = .ready → τ.eff u ≤ (σ.donateTo l).eff σ.current)
      (fun τ _ next hI _ _ hlt _ => by
        obtain ⟨hcurrent, heff, hready⟩ := hI
        refine ⟨(donated_raise τ next _).current.trans hcurrent, ?_, fun u hu => ?_⟩
        · rw [eff_raise]
          split
          · rfl
          · exact heff
        · rw [eff_raise]
          split
          · exact le_rfl
          · exact hready u (status_raise τ next u _ ▸ hu))
      hloop rfl ⟨rfl, rfl, hto⟩
    intro u hu
    show σ₁.eff u ≤ σ₁.eff σ₁.current
    rw [hcurrent, heff]
    exact hready u hu

/-- **What a region leaves ready**, where it is `Preempting`. -/
theorem execute_strict {σ σ' : Machine} {r : Region} (hplaced : Placed σ)
    (hqueue : QueueOrdered σ) (hprio : σ.policy = .prio)
    (hpriority : ∀ t, priMin ≤ (σ.threads t).priority) (heff : ∀ t, priMin ≤ σ.eff t)
    (hidle : r ≠ .block → r ≠ .resumed → σ.current ≠ σ.idleThread)
    (hplaced' : Placed σ') (hformed : Formed (r :: σ.code σ.current))
    (hok : Preempting σ (.run r))
    (h : ∀ u, σ.status u = .ready → σ.eff u ≤ σ.eff σ.current ∨ r = .updatePriority ∨
      r = .yieldTo u)
    (hrun : (execute r).run σ = some ((), σ')) : AlmostStrict σ' := by
  have himpl := hplaced.listed.implemented
  have hdone : ∀ {σ₁ : Machine}, some ((), σ₁) = some ((), σ') → σ' = σ₁ := fun heq =>
    (Prod.mk.inj (Option.some.inj heq)).2.symm
  have hstrict : r ≠ .updatePriority → (∀ u, r ≠ .yieldTo u) → StrictPriority σ :=
    fun hupdate hyield u hu => (h u hu).resolve_right fun hor => hor.elim hupdate (hyield u)
  cases r with
  | create priority =>
    have hσ := hstrict (by simp) (by simp)
    rcases threadCreate_cases hrun with rfl | ⟨-, -, rfl⟩
    · exact StrictPriority.almost hσ
    · obtain ⟨hblocked, -, -⟩ := hplaced.coded.unborn σ.nextThread (.inl le_rfl)
      have hcur : σ.current ≠ σ.nextThread := fun heq => by
        rw [← heq, (hplaced.listed.running _).2 rfl] at hblocked
        cases hblocked
      have hold : ∀ t, t ≠ σ.nextThread →
          (σ.create priority).threads t = σ.threads t := fun t ht => by
        simp [Machine.create, Machine.push, Machine.setCode, ht]
      refine StrictPriority.almost fun u hu => ?_
      have hne : u ≠ σ.nextThread := by
        rintro rfl
        simp [Machine.status, Machine.create, Machine.push, Machine.setCode, initThread] at hu
      show ((σ.create priority).threads u).effectivePriority ≤
        ((σ.create priority).threads σ.current).effectivePriority
      rw [hold u hne, hold _ hcur]
      refine hσ u ?_
      rwa [Machine.status, hold u hne] at hu
  | start t =>
    have hσ := hstrict (by simp) (by simp)
    obtain ⟨-, rfl⟩ := threadStart_cases himpl hrun
    intro u hu
    rcases Classical.em (u = t) with rfl | hut
    · exact .inr (.inr (by simp [Machine.push, Machine.setCode]))
    · refine .inl ?_
      have hsame := samePriorities_unblock σ t
      show (σ.unblock t).eff u ≤ (σ.unblock t).eff σ.current
      rw [hsame.eff, hsame.eff]
      have hready : (σ.unblock t).status u = .ready := hu
      rw [Machine.unblock, status_setStatus, if_neg hut, status_enqueue] at hready
      exact hσ u hready
  | yieldTo t =>
    rw [hdone ((yieldTo_run himpl t).symm.trans hrun)]
    split
    · exact (hqueue.yield_strict hplaced hprio heff).almost
    · rename_i hbelow
      refine StrictPriority.almost fun u hu => ?_
      rcases h u hu with hle | hupdate | hyield
      · exact hle
      · cases hupdate
      · cases hyield
        exact not_lt.1 hbelow
  | yield =>
    rw [hdone ((threadYield_run himpl).symm.trans hrun)]
    exact (hqueue.yield_strict hplaced hprio heff).almost
  | setPriority p =>
    rw [hdone hrun]
    exact StrictPriority.almost (StrictPriority.congr (hstrict (by simp) (by simp)) rfl
      (sameLists_setThread rfl).status (eff_setThread_of_eq rfl))
  | setEffective p =>
    rw [hdone hrun]
    intro u _
    refine .inr (.inl ?_)
    show (σ.code σ.current).head? = _
    rw [show σ.code σ.current = [.updatePriority] from hformed]
    rfl
  | updatePriority =>
    have hstatus : (σ.threads σ.current).status ≠ .ready := by
      rw [show (σ.threads σ.current).status = .running from (hplaced.listed.running _).2 rfl]
      simp
    rw [hdone ((updatePriority_run hstatus).symm.trans hrun)]
    refine StrictPriority.almost fun u hu => ?_
    rw [(sameLists_setEff σ σ.current _).status] at hu
    show (σ.setEff σ.current _).eff u ≤ (σ.setEff σ.current _).eff σ.current
    have hle := (covered_iff σ _ _ _).1 (hok u hu)
    rw [Machine.setEff, eff_setThread, eff_setThread, if_pos rfl]
    split
    · exact le_rfl
    · exact hle
  | down s =>
    rcases semaDownTurn_cases himpl hrun with ⟨-, rfl⟩ | ⟨-, rfl⟩
    · exact (((hqueue.setSema s _).setCode _ _).block_strict hprio hplaced' heff).almost
    · exact ((hstrict (by simp) (by simp)).congr rfl (fun _ => rfl) fun _ => rfl).almost
  | tryDown s =>
    rw [hdone hrun]
    exact ((hstrict (by simp) (by simp)).congr rfl (fun _ => rfl) fun _ => rfl).almost
  | up s =>
    exact (semaUp_strict hplaced hqueue hprio heff (.inl (hstrict (by simp) (by simp))) hrun).almost
  | acquire l => exact (lockAcquire_strict (hstrict (by simp) (by simp)) hrun).almost
  | take l =>
    rw [hdone hrun]
    refine StrictPriority.almost (StrictPriority.congr (hstrict (by simp) (by simp)) rfl
      (sameLists_take σ l).status fun t => ?_)
    exact eff_setThread_of_eq
      (f := fun th => { th with donatedTo := none, donatedLocks := th.donatedLocks ++ [l] }) rfl t
  | release l =>
    obtain ⟨-, hup⟩ := lockRelease_cases ((hplaced.listed.running _).2 rfl) hrun
    have hσ := hstrict (by simp) (by simp)
    have hle : ∀ p, σ.Covered σ.current ((σ.threads σ.current).donatedLocks.erase l) p ↔
        p ≤ σ.left l := covered_iff σ _ _
    have hself : (σ.release l).eff (σ.release l).current = σ.left l := by
      show (σ.release l).eff σ.current = _
      rw [eff_release, if_pos rfl]
    refine (semaUp_strict (hplaced.same (sameLists_release σ l) rfl rfl)
      (hqueue.release hplaced hprio (hidle (by simp) (by simp)) l) hprio (fun t => ?_) ?_ hup).almost
    · rw [eff_release]
      split
      · exact (hpriority σ.current).trans ((hle _).1 (.inl le_rfl))
      · exact heff t
    · rcases hok with hall | ⟨w, hw, hnot⟩
      · refine .inl fun u hu => ?_
        rw [(sameLists_release σ l).status] at hu
        rw [hself, eff_release]
        split
        · exact le_rfl
        · exact (hle _).1 (hall u hu)
      · refine .inr ⟨w, hw, ?_⟩
        have hblocked := (hplaced.listed.waiting _ w hw).1
        have hne : w ≠ σ.current := fun heq => by
          rw [heq, (hplaced.listed.running _).2 rfl] at hblocked
          cases hblocked
        rw [hself, eff_release, if_neg hne]
        exact not_le.1 fun hwl => hnot ((hle _).2 hwl)
  | sleep ticks =>
    have hσ := hstrict (by simp) (by simp)
    rw [hdone ((sleepUntil_run σ ticks).symm.trans hrun)]
    split
    · have hwake : StrictPriority (σ.setThread σ.current fun th =>
          { th with wakeTime := wrap64 (σ.ticks + ticks) }) :=
        hσ.congr rfl (sameLists_setThread rfl).status (eff_setThread_of_eq rfl)
      exact StrictPriority.almost hwake
    · exact hσ.almost
  | sleepInsert =>
    rw [hdone ((sleepInsert_run himpl).symm.trans hrun)] at hplaced' ⊢
    have hsleeping : ∀ sleepers, QueueOrdered { σ with sleepingList := sleepers } := fun _ =>
      hqueue.congr ⟨rfl, rfl, fun _ _ => rfl, fun _ => .inl rfl, rfl, rfl, rfl⟩
    exact (QueueOrdered.block_strict ((hsleeping _).setCode _ _) hprio hplaced' heff).almost
  | slept =>
    rw [hdone hrun]
    exact (hstrict (by simp) (by simp)).almost
  | block =>
    rw [hdone ((threadBlock_run (σ := σ.push [.resumed]) himpl).symm.trans hrun)] at hplaced' ⊢
    exact ((hqueue.setCode _ _).block_strict hprio hplaced' heff).almost
  | resumed =>
    rw [hdone hrun]
    exact (hstrict (by simp) (by simp)).almost
  | unblock t =>
    rw [(threadUnblock_cases himpl hrun).2]
    exact ((hstrict (by simp) (by simp)).unblock hok).almost

/-! ### Runs -/

/-- One step keeps the running thread so, or leaves it a yield to run. -/
theorem AlmostStrict.step {σ σ' : Machine} {e : Event} (h : AlmostStrict σ) (hplaced : Placed σ)
    (hqueue : QueueOrdered σ) (hprio : σ.policy = .prio) (hfloored : Floored σ)
    (hformed : ∀ t, Formed (σ.code t)) (hplaced' : Placed σ') (hok : Preempting σ e)
    (hs : MachineStep σ e σ') : AlmostStrict σ' := by
  have hstrict : (∀ r ∈ (σ.code σ.current).head?, r ≠ .updatePriority ∧ ∀ t, r ≠ .yieldTo t) →
      StrictPriority σ := fun hhead => h.strict
    ⟨fun heq => (hhead _ heq).1 rfl, fun t heq => (hhead _ heq).2 t rfl⟩
  cases hs with
  | call c hnil _ =>
    refine StrictPriority.almost (StrictPriority.congr (hstrict ?_) rfl (fun _ => rfl) fun _ => rfl)
    simp [hnil]
  | run r rest hcode hmay hrun =>
    have hpopped : (σ.setCode σ.current rest).code (σ.setCode σ.current rest).current = rest := by
      simp [Machine.setCode]
    refine execute_strict (hplaced.pop hcode) (hqueue.setCode _ _) hprio hfloored.priority
      hfloored.eff (hplaced.current_ne_idle hcode) hplaced' ?_ ?_ (fun u hu => ?_) hrun
    · rw [hpopped, ← hcode]
      exact hformed σ.current
    · cases r <;> exact hok
    · refine (h u hu).imp id fun hor => ?_
      rw [hcode] at hor
      exact hor.imp (fun heq => Option.some.inj heq) fun heq => Option.some.inj heq
  | tick _ hrun => exact (timerTick_strict hplaced hqueue hprio hfloored.eff hrun).almost
  | deviceUp n _ hrun => exact h.deviceUp hplaced hok hrun

/-- What holds in every state that steps of the kind lead to. -/
structure StrictInv (σ : Machine) : Prop where
  placed : Placed σ
  prio : σ.policy = .prio
  queue : QueueOrdered σ
  formed : ∀ t, Formed (σ.code t)
  floored : Floored σ
  almost : AlmostStrict σ

/-- The invariant holds after boot. -/
theorem strictInv_boot (values : ℕ → UInt32) (memory : ℕ → Bool) :
    StrictInv (boot .prio values memory) := by
  have hprio : ∀ t, ((boot .prio values memory).threads t).priority =
      if t = 0 then priDefault else priMin := fun t => by
    show (if t = 0 then _ else if t = 1 then _ else _ : Thread).priority = _
    split
    · rfl
    · split <;> rfl
  have heff : ∀ t, (boot .prio values memory).eff t = if t = 0 then priDefault else priMin :=
    fun t => by
      show (if t = 0 then _ else if t = 1 then _ else _ : Thread).effectivePriority = _
      split
      · rfl
      · split <;> rfl
  refine ⟨placed_boot (.inr rfl) values memory, rfl, queueOrdered_boot values memory,
    fun _ => trivial, ⟨fun t => ?_, fun t => ?_, fun t p hp => ?_⟩, fun u _ => .inl ?_⟩
  · rw [hprio]
    split <;> decide
  · rw [heff]
    split <;> decide
  · rcases hp with hp | hp <;> cases hp
  · rw [heff, heff]
    show (if u = 0 then priDefault else priMin) ≤ if (0 : ThreadId) = 0 then priDefault else priMin
    split <;> decide

theorem StrictInv.step {σ σ' : Machine} {e : Event} (h : StrictInv σ) (hok : Preempting σ e)
    (hs : MachineStep σ e σ') : StrictInv σ' := by
  obtain ⟨hplaced', hpolicy'⟩ := h.placed.step (fun _ _ => .inl h.prio) hs
  exact ⟨hplaced', hpolicy'.trans h.prio, (h.queue.step h.placed h.prio hplaced' hs).queue,
    formed_step h.placed h.formed hs, h.floored.step h.placed hok hs,
    h.almost.step h.placed h.queue h.prio h.floored h.formed hplaced' hok hs⟩

/-- **Strict priority scheduling**, in runs whose steps bring no ready thread
above the running one unless they yield: when a call has returned, no ready
thread has a higher priority than the running one. -/
theorem strictPriority_of_preempting {σ : Machine} (h : Reached .prio Preempting σ)
    (hreturned : σ.Returned) : StrictPriority σ := by
  have hinv : StrictInv σ := by
    clear hreturned
    induction h with
    | boot values memory => exact strictInv_boot values memory
    | step _ hok hs ih => exact ih.step hok hs
  exact hinv.almost.strict hreturned

/-- Steps that are `Preempting` whatever the state. -/
def preemptingAlways : Event → Bool
  | .call (.setPriority _) | .run .updatePriority | .run (.release _) | .run (.unblock _)
  | .deviceUp _ => false
  | _ => true

theorem preempting_always {σ : Machine} {e : Event} (h : preemptingAlways e = true) :
    Preempting σ e := by
  cases e with
  | call c => cases c <;> trivial
  | run r => cases r <;> trivial
  | tick => trivial
  | deviceUp n => cases h

/-- `main` creates a thread of priority 20, which stays ready while `main` runs. -/
theorem strictPriority_create : ∃ σ, Reached .prio Preempting σ ∧ σ.code σ.current = [] ∧
    σ.status 2 = .ready ∧ StrictPriority σ := by
  have hrun : ((boot .prio (fun _ => 0) (fun _ => true)).afterAll (fun _ => preemptingAlways)
      [.call (.create 20), .run (.create 20), .run (.acquire tidLock),
        .run (.down (.lock tidLock)), .run (.take tidLock)]).bind (fun σ =>
          (σ.after (.run (.release tidLock))).bind fun σ₁ =>
            (σ₁.afterAll (fun _ => preemptingAlways) [.run (.start 2), .run (.yieldTo 2)]).map
              fun σ₂ => ((σ.idleThread, σ.priorityQueue, σ.eff 1, (σ.threads σ.current).priority),
                σ₂.code σ₂.current, σ₂.status 2)) =
      some ((1, [], 0, 31), [], .ready) := by decide +kernel
  obtain ⟨σ, hσ, hrun⟩ := Option.bind_eq_some_iff.1 hrun
  obtain ⟨σ₁, hσ₁, hrun⟩ := Option.bind_eq_some_iff.1 hrun
  obtain ⟨σ₂, hσ₂, heq⟩ := Option.map_eq_some_iff.1 hrun
  simp only [Prod.mk.injEq] at heq
  obtain ⟨⟨hidle, hqueue, heff, hpriority⟩, hcode, hready⟩ := heq
  have hboot : Reached .prio Preempting (boot .prio (fun _ => 0) fun _ => true) :=
    .boot _ _
  have hreached := hboot.afterAll (fun _ _ _ => preempting_always) hσ
  -- only `idle` is ready when `tid_lock` is released
  have hrelease : Preempting σ (.run (.release tidLock)) := by
    obtain ⟨hplaced, hprio⟩ := hreached.placed (.inl rfl)
    refine .inl fun u hu => .inl ?_
    have hmem := (hplaced.listed.mem_priorityQueue hprio u).not.1 (by simp [hqueue])
    have hu1 : u = 1 := by
      rw [← hidle]
      exact not_not.1 fun hne => hmem ⟨hu, hne⟩
    rw [hu1, heff, hpriority]
    decide
  have hreached₂ := (hreached.step hrelease (Machine.after_step hσ₁)).afterAll
    (fun _ _ _ => preempting_always) hσ₂
  refine ⟨σ₂, hreached₂, hcode, hready, strictPriority_of_preempting hreached₂ ?_⟩
  exact ⟨by simp [hcode], by simp [hcode]⟩

/-- `main` creates a thread of priority 20 and sets its own priority to 10: when
`thread_set_priority` returns, `main` runs on. -/
theorem not_strictPriority : ¬∀ σ, Reached .prio (fun _ _ => True) σ → σ.code σ.current = [] →
    StrictPriority σ := by
  intro hall
  have hrun : (((boot .prio (fun _ => 0) (fun _ => true)).afterAll (fun _ _ => true)
      [.call (.create 20), .run (.create 20), .run (.acquire tidLock),
        .run (.down (.lock tidLock)), .run (.take tidLock), .run (.release tidLock),
        .run (.start 2), .run (.yieldTo 2), .call (.setPriority 10), .run (.setPriority 10),
        .run (.setEffective 10), .run .updatePriority]).map fun σ =>
        (σ.code σ.current, σ.status 2, σ.eff 2, σ.eff σ.current)) =
      some ([], .ready, 20, 10) := by decide +kernel
  obtain ⟨σ, hσ, heq⟩ := Option.map_eq_some_iff.1 hrun
  simp only [Prod.mk.injEq] at heq
  obtain ⟨hcode, hready, heff, hcurrent⟩ := heq
  have hboot : Reached .prio (fun _ _ => True) (boot .prio (fun _ => 0) fun _ => true) :=
    .boot _ _
  have hreached := hboot.afterAll (fun _ _ _ _ => trivial) hσ
  have hle := hall σ hreached hcode 2 hready
  rw [heff, hcurrent] at hle
  exact absurd hle (by decide)

end Threads
end CS162

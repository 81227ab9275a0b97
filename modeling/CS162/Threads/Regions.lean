/-
# What a region leaves to run, and what it does to priorities

`projects1-3/src/threads/thread.c`, lines 185-307 and 376-419, and
`projects1-3/src/threads/synch.c`, lines 65-252.

`execute_code` says what a region pushes on the code of its thread.  What a
thread has still to run is one of few lists: `Formed`.

`execute_priorities` says what a region does to what donation reads and writes:
priorities, the locks that threads hold and wait for, and the values of the
semaphores.  Switching threads changes none of it (`SamePriorities`).
-/

import CS162.Threads.Queues
import Mathlib.Order.Bounds.Basic

namespace CS162
namespace Threads

open CS162.Basis CS162.Lib

theorem priority_raise (σ : Machine) (t u : ThreadId) (p : ℤ) :
    ((σ.raise t p).threads u).priority = (σ.threads u).priority := by
  have hset : ((σ.setEff t p).threads u).priority = (σ.threads u).priority := by
    rcases Classical.em (u = t) with rfl | hu
    · simp [Machine.setEff, Machine.setThread]
    · simp [Machine.setEff, Machine.setThread, hu]
  unfold Machine.raise
  split <;> exact hset

/-! ### Code -/

/-- What follows `lock_acquire`: the rest of `thread_create`, if anything. -/
def AfterAcquire (rest : List Region) : Prop :=
  rest = [] ∨ ∃ t, rest = [.release tidLock, .start t]

/-- What a thread can have still to run. -/
def Formed : List Region → Prop
  | [] => True
  | .acquire _ :: rest => AfterAcquire rest
  | .down (.lock l) :: rest => ∃ rest', rest = .take l :: rest' ∧ AfterAcquire rest'
  | .take _ :: rest => AfterAcquire rest
  | .release _ :: rest => rest = [] ∨ ∃ t, rest = [.start t]
  | .setPriority p :: rest => rest = [.setEffective p, .updatePriority]
  | .setEffective _ :: rest => rest = [.updatePriority]
  | .tryDown (.lock _) :: _ | .up (.lock _) :: _ => False
  | _ :: rest => rest = []

/-- What a region pushes. -/
def Region.Pushes : Region → List Region → Prop
  | .create _, pushed =>
    pushed = [] ∨ ∃ t, pushed = [.acquire tidLock, .release tidLock, .start t]
  | .start t, pushed => pushed = [.yieldTo t]
  | .down s, pushed => pushed = [] ∨ pushed = [.down s]
  | .acquire l, pushed => pushed = [.down (.lock l), .take l]
  | .sleep _, pushed => pushed = [] ∨ pushed = [.sleepInsert]
  | .sleepInsert, pushed => pushed = [.slept]
  | .block, pushed => pushed = [.resumed]
  | _, pushed => pushed = []

theorem AfterAcquire.formed {rest : List Region} (h : AfterAcquire rest) : Formed rest := by
  rcases h with rfl | ⟨t, rfl⟩
  · trivial
  · exact .inr ⟨t, rfl⟩

/-- What a thread has still to run stays well formed. -/
theorem Formed.pushes {r : Region} {rest pushed : List Region} (h : Formed (r :: rest))
    (hpushed : r.Pushes pushed) : Formed (pushed ++ rest) := by
  cases r with
  | create p =>
    cases (h : rest = [])
    rcases hpushed with rfl | ⟨t, rfl⟩
    · trivial
    · exact .inr ⟨t, rfl⟩
  | start t =>
    cases (h : rest = [])
    cases (hpushed : pushed = _)
    rfl
  | down s =>
    rcases hpushed with rfl | rfl
    · cases s with
      | lock l =>
        obtain ⟨rest', rfl, hafter⟩ := h
        exact hafter
      | other n =>
        cases (h : rest = [])
        trivial
    · exact h
  | acquire l =>
    cases (hpushed : pushed = _)
    exact ⟨rest, rfl, h⟩
  | sleep ticks =>
    cases (h : rest = [])
    rcases hpushed with rfl | rfl
    · trivial
    · rfl
  | sleepInsert | block =>
    cases (h : rest = [])
    cases (hpushed : pushed = _)
    rfl
  | take l =>
    cases (hpushed : pushed = _)
    exact AfterAcquire.formed h
  | release l =>
    cases (hpushed : pushed = _)
    rcases h with rfl | ⟨t, rfl⟩
    · trivial
    · rfl
  | setPriority p | setEffective p =>
    cases (hpushed : pushed = _)
    cases (h : rest = _)
    rfl
  | tryDown s | up s =>
    cases (hpushed : pushed = _)
    cases s with
    | lock l => cases h
    | other n =>
      cases (h : rest = [])
      trivial
  | updatePriority | yieldTo _ | yield | slept | resumed | unblock _ =>
    cases (hpushed : pushed = _)
    cases (h : rest = [])
    trivial

@[simp] theorem code_yield (σ : Machine) : σ.yield.code = σ.code := by
  show σ.suspend.code = σ.code
  unfold Machine.suspend
  split <;> rfl

theorem semaUp_code {σ σ' : Machine} (h : σ.policy.Implemented) {intrContext : Bool} {s : SemaId}
    (hrun : (semaUp intrContext s).run σ = some ((), σ')) : σ'.code = σ.code := by
  obtain ⟨_, _, -, ⟨-, rfl⟩ | ⟨t, -, -, rfl⟩⟩ := semaUp_cases h hrun
  · rfl
  · split
    · exact code_yield _
    · rfl

theorem timerTick_code {σ σ' : Machine} (h : Placed σ)
    (hrun : timerTick.run σ = some ((), σ')) : σ'.code = σ.code := by
  obtain ⟨σ₁, -, hcode, rfl⟩ := h.timerTick_rule (I := fun τ => τ.code = σ.code)
    (fun _ _ _ hI _ => hI) rfl hrun
  split
  · exact (code_yield σ₁.countTick).trans hcode
  · exact hcode

theorem code_push (σ : Machine) (regions : List Region) :
    (σ.push regions).code σ.current = regions ++ σ.code σ.current ∧
      ∀ t, t ≠ σ.current → (σ.push regions).code t = σ.code t :=
  ⟨by simp [Machine.push, Machine.setCode], fun t ht => by
    simp [Machine.push, Machine.setCode, ht]⟩

theorem code_wait (σ : Machine) (s : SemaId) :
    (σ.wait s).code σ.current = .down s :: σ.code σ.current :=
  (code_push (σ.setSema s { σ.semas s with
    waiters := (σ.semas s).waiters ++ [σ.current] }) [.down s]).1

/-- **What a region does to the code of the threads.** -/
theorem execute_code {σ σ' : Machine} (h : Placed σ) {r : Region}
    (hrun : (execute r).run σ = some ((), σ')) :
    ∃ pushed, r.Pushes pushed ∧ σ'.code σ.current = pushed ++ σ.code σ.current ∧
      ∀ t, t ≠ σ.current → σ'.code t = σ.code t := by
  have himpl := h.listed.implemented
  have hdone : ∀ {σ₁ : Machine}, some ((), σ₁) = some ((), σ') → σ' = σ₁ := fun heq =>
    (Prod.mk.inj (Option.some.inj heq)).2.symm
  have hsame : ∀ {τ : Machine}, τ.code = σ.code → τ.code σ.current = [] ++ σ.code σ.current ∧
      ∀ t, t ≠ σ.current → τ.code t = σ.code t := fun heq => by
    rw [heq]
    exact ⟨rfl, fun _ _ => rfl⟩
  cases r with
  | create priority =>
    rcases threadCreate_cases hrun with rfl | ⟨-, -, rfl⟩
    · exact ⟨[], .inl rfl, hsame rfl⟩
    · obtain ⟨hblocked, hnil, -⟩ := h.coded.unborn σ.nextThread (.inl le_rfl)
      have hne : σ.current ≠ σ.nextThread := fun heq => by
        rw [← heq, (h.listed.running _).2 rfl] at hblocked
        cases hblocked
      refine ⟨_, .inr ⟨σ.nextThread, rfl⟩, ?_, fun t ht => ?_⟩
      · simp [Machine.create, Machine.push, Machine.setCode, hne]
      · rcases Classical.em (t = σ.nextThread) with rfl | htn
        · simp [Machine.create, Machine.push, Machine.setCode, ht, hnil]
        · simp [Machine.create, Machine.push, Machine.setCode, ht, htn]
  | start t =>
    obtain ⟨-, rfl⟩ := threadStart_cases himpl hrun
    exact ⟨_, rfl, code_push (σ.unblock t) [.yieldTo t]⟩
  | yieldTo t =>
    rw [hdone ((yieldTo_run himpl t).symm.trans hrun)]
    refine ⟨[], rfl, hsame ?_⟩
    split
    · exact code_yield σ
    · rfl
  | yield =>
    rw [hdone ((threadYield_run himpl).symm.trans hrun)]
    exact ⟨[], rfl, hsame (code_yield σ)⟩
  | updatePriority =>
    have hstatus : (σ.threads σ.current).status ≠ .ready := by
      rw [show (σ.threads σ.current).status = .running from (h.listed.running _).2 rfl]
      simp
    rw [hdone ((updatePriority_run hstatus).symm.trans hrun)]
    exact ⟨[], rfl, hsame rfl⟩
  | down s =>
    rcases semaDownTurn_cases himpl hrun with ⟨-, rfl⟩ | ⟨-, rfl⟩
    · exact ⟨[.down s], .inr rfl, code_push (σ.setSema s _) [.down s]⟩
    · exact ⟨[], .inl rfl, hsame rfl⟩
  | up s => exact ⟨[], rfl, hsame (semaUp_code himpl hrun)⟩
  | acquire l =>
    obtain ⟨-, σ₁, hdonate, rfl⟩ := lockAcquire_cases hrun
    have hcode : σ₁.code = σ.code ∧ σ₁.current = σ.current := by
      rcases hdonate with ⟨-, rfl⟩ | ⟨-, hloop⟩
      · exact ⟨rfl, rfl⟩
      · obtain ⟨-, hdonated, -⟩ := donateLoop_rule (p := (σ.donateTo l).eff σ.current)
          (I := fun _ τ => Donated (σ.donateTo l) τ)
          (fun τ _ next hI _ _ _ _ => hI.trans (donated_raise τ next _)) hloop rfl (.refl _)
        exact ⟨hdonated.code, hdonated.current⟩
    obtain ⟨hself, hother⟩ := code_push σ₁ [.down (.lock l), .take l]
    rw [hcode.1, hcode.2] at hself
    refine ⟨_, rfl, hself, fun t ht => ?_⟩
    rw [hother t (hcode.2.symm ▸ ht), hcode.1]
  | release l =>
    obtain ⟨-, hup⟩ := lockRelease_cases ((h.listed.running _).2 rfl) hrun
    have hcode := semaUp_code (σ := σ.release l) himpl hup
    exact ⟨[], rfl, hsame hcode⟩
  | sleep ticks =>
    rw [hdone ((sleepUntil_run σ ticks).symm.trans hrun)]
    split
    · exact ⟨[.sleepInsert], .inr rfl, code_push (σ.setThread σ.current _) [.sleepInsert]⟩
    · exact ⟨[], .inl rfl, hsame rfl⟩
  | sleepInsert =>
    rw [hdone ((sleepInsert_run himpl).symm.trans hrun)]
    exact ⟨[.slept], rfl, code_push { σ with sleepingList := _ } [.slept]⟩
  | block =>
    rw [hdone ((threadBlock_run (σ := σ.push [.resumed]) himpl).symm.trans hrun)]
    exact ⟨[.resumed], rfl, code_push σ [.resumed]⟩
  | unblock t =>
    rw [(threadUnblock_cases himpl hrun).2]
    exact ⟨[], rfl, hsame rfl⟩
  | setPriority p | setEffective p | tryDown s | take l | slept | resumed =>
    cases hrun
    exact ⟨[], rfl, hsame rfl⟩

/-- Every step leaves every thread with code it can have. -/
theorem formed_step {σ σ' : Machine} {e : Event} (h : Placed σ)
    (hformed : ∀ t, Formed (σ.code t)) (hs : MachineStep σ e σ') (t : ThreadId) :
    Formed (σ'.code t) := by
  cases hs with
  | call c _ _ =>
    rcases Classical.em (t = σ.current) with rfl | ht
    · simp only [Machine.setCode, Function.update_self]
      cases c with
      | lockAcquire l | lockRelease l => exact .inl rfl
      | create _ | yield | setPriority _ | semaDown _ | semaTryDown _ | semaUp _ | sleep _
      | block | unblock _ => rfl
    · simpa only [Machine.setCode, Function.update_of_ne ht] using hformed t
  | run r rest hcode _ hrun =>
    obtain ⟨pushed, hpushed, hself, hother⟩ := execute_code (h.pop hcode) hrun
    rcases Classical.em (t = σ.current) with rfl | ht
    · rw [show σ'.code σ.current = _ from hself, show (σ.setCode σ.current rest).code
        (σ.setCode σ.current rest).current = rest by simp [Machine.setCode]]
      exact Formed.pushes (hcode ▸ hformed σ.current) hpushed
    · rw [hother t ht]
      simpa only [Machine.setCode, Function.update_of_ne ht] using hformed t
  | tick _ hrun =>
    rw [timerTick_code h hrun]
    exact hformed t
  | deviceUp n _ hrun =>
    rw [semaUp_code h.listed.implemented hrun]
    exact hformed t

theorem Reached.formed {policy : SchedPolicy} {ok : Machine → Event → Prop} {σ : Machine}
    (h : Reached policy ok σ) (hplaced : ∀ τ, Reached policy ok τ → Placed τ) (t : ThreadId) :
    Formed (σ.code t) := by
  induction h generalizing t with
  | boot values memory => trivial
  | step h _ hs ih => exact formed_step (hplaced _ h) ih hs t

/-! ### Priorities -/

/-- Machines that do not differ in what donation reads and writes. -/
structure SamePriorities (σ σ' : Machine) : Prop where
  priority : ∀ t, (σ'.threads t).priority = (σ.threads t).priority
  eff : ∀ t, σ'.eff t = σ.eff t
  donatedTo : ∀ t, (σ'.threads t).donatedTo = (σ.threads t).donatedTo
  donatedLocks : ∀ t, (σ'.threads t).donatedLocks = (σ.threads t).donatedLocks
  holder : ∀ l, σ'.holder l = σ.holder l
  value : ∀ s, (σ'.semas s).value = (σ.semas s).value
  allList : σ'.allList = σ.allList
  nextThread : σ'.nextThread = σ.nextThread

theorem SamePriorities.refl (σ : Machine) : SamePriorities σ σ :=
  ⟨fun _ => rfl, fun _ => rfl, fun _ => rfl, fun _ => rfl, fun _ => rfl, fun _ => rfl, rfl, rfl⟩

theorem SamePriorities.trans {σ σ' σ'' : Machine} (h : SamePriorities σ σ')
    (h' : SamePriorities σ' σ'') : SamePriorities σ σ'' :=
  ⟨fun t => (h'.priority t).trans (h.priority t), fun t => (h'.eff t).trans (h.eff t),
    fun t => (h'.donatedTo t).trans (h.donatedTo t),
    fun t => (h'.donatedLocks t).trans (h.donatedLocks t),
    fun l => (h'.holder l).trans (h.holder l), fun s => (h'.value s).trans (h.value s),
    h'.allList.trans h.allList, h'.nextThread.trans h.nextThread⟩

/-- A change to nothing of threads, locks and semaphores. -/
theorem samePriorities_of_threads {σ σ' : Machine} (hthreads : σ'.threads = σ.threads)
    (hholder : σ'.holder = σ.holder) (hsemas : σ'.semas = σ.semas)
    (hall : σ'.allList = σ.allList) (hnext : σ'.nextThread = σ.nextThread) :
    SamePriorities σ σ' := by
  refine ⟨fun t => ?_, fun t => ?_, fun t => ?_, fun t => ?_, fun l => ?_, fun s => ?_, hall,
    hnext⟩
  · rw [hthreads]
  · unfold Machine.eff
    rw [hthreads]
  · rw [hthreads]
  · rw [hthreads]
  · rw [hholder]
  · rw [hsemas]

theorem samePriorities_push (σ : Machine) (regions : List Region) :
    SamePriorities σ (σ.push regions) := samePriorities_of_threads rfl rfl rfl rfl rfl

/-- A change to fields of a thread that donation does not read. -/
theorem samePriorities_setThread {σ : Machine} {t : ThreadId} {f : Thread → Thread}
    (hf : ∀ th, (f th).priority = th.priority ∧
      (f th).effectivePriority = th.effectivePriority ∧ (f th).donatedTo = th.donatedTo ∧
      (f th).donatedLocks = th.donatedLocks) : SamePriorities σ (σ.setThread t f) := by
  have hthread := fun u => threads_setThread_cases σ t u f
  refine ⟨fun u => ?_, fun u => ?_, fun u => ?_, fun u => ?_, fun _ => rfl, fun _ => rfl, rfl, rfl⟩
  · rcases hthread u with heq | heq <;> rw [heq]
    exact (hf _).1
  · unfold Machine.eff
    rcases hthread u with heq | heq <;> rw [heq]
    exact (hf _).2.1
  · rcases hthread u with heq | heq <;> rw [heq]
    exact (hf _).2.2.1
  · rcases hthread u with heq | heq <;> rw [heq]
    exact (hf _).2.2.2

theorem samePriorities_setStatus (σ : Machine) (t : ThreadId) (status : ThreadStatus) :
    SamePriorities σ (σ.setStatus t status) :=
  samePriorities_setThread fun _ => ⟨rfl, rfl, rfl, rfl⟩

theorem samePriorities_dispatch (σ : Machine) : SamePriorities σ σ.dispatch :=
  let h := samePriorities_setStatus σ σ.next .running
  ⟨h.priority, h.eff, h.donatedTo, h.donatedLocks, h.holder, h.value, h.allList,
    h.nextThread⟩

theorem samePriorities_unblock (σ : Machine) (t : ThreadId) : SamePriorities σ (σ.unblock t) :=
  let h := samePriorities_setStatus (σ.enqueue t) t .ready
  ⟨h.priority, h.eff, h.donatedTo, h.donatedLocks, h.holder, h.value, h.allList,
    h.nextThread⟩

theorem samePriorities_yield (σ : Machine) : SamePriorities σ σ.yield := by
  refine SamePriorities.trans ?_ (samePriorities_dispatch σ.suspend)
  unfold Machine.suspend
  split
  · exact samePriorities_setStatus σ σ.current .ready
  · exact samePriorities_unblock σ σ.current

theorem samePriorities_block (σ : Machine) : SamePriorities σ σ.block :=
  (samePriorities_setStatus σ σ.current .blocked).trans (samePriorities_dispatch _)

/-- `sema_up` only changes its semaphore. -/
theorem semaUp_priorities {σ σ' : Machine} (h : σ.policy.Implemented) {intrContext : Bool}
    {s : SemaId} (hrun : (semaUp intrContext s).run σ = some ((), σ')) :
    ∃ sema, sema.value = (σ.semas s).value + 1 ∧ SamePriorities (σ.setSema s sema) σ' := by
  obtain ⟨_, sema, hup, hcases⟩ := semaUp_cases h hrun
  refine ⟨sema, (Semaphore.up_cases hup).1, ?_⟩
  rcases hcases with ⟨-, rfl⟩ | ⟨t, -, -, rfl⟩
  · exact .refl _
  · have hunblock := samePriorities_unblock (σ.setSema s sema) t
    split
    · exact hunblock.trans (samePriorities_yield _)
    · exact hunblock

theorem timerTick_priorities {σ σ' : Machine} (h : Placed σ)
    (hrun : timerTick.run σ = some ((), σ')) : SamePriorities σ σ' := by
  obtain ⟨σ₁, -, hsame, rfl⟩ := h.timerTick_rule (I := SamePriorities σ)
    (fun τ t _ hI _ => hI.trans (samePriorities_unblock τ t))
    (samePriorities_of_threads rfl rfl rfl rfl rfl) hrun
  have hcount : SamePriorities σ σ₁.countTick :=
    hsame.trans (samePriorities_of_threads rfl rfl rfl rfl rfl)
  split
  · exact hcount.trans (samePriorities_yield _)
  · exact hcount

/-- The two loops of `update_priority`. -/
theorem maxPriority_isGreatest (σ : Machine) (locks : List LockId) (max : ℤ) :
    IsGreatest {p | p = max ∨ ∃ l ∈ locks, ∃ w ∈ (σ.waiters (.lock l)).head?, p = σ.eff w}
      (maxPriority σ locks max) := by
  induction locks generalizing max with
  | nil => exact ⟨.inl rfl, fun p hp => (hp.resolve_right (by simp)).le⟩
  | cons l locks ih =>
    unfold maxPriority
    cases hwaiters : (σ.semas (.lock l)).waiters with
    | nil =>
      have hnone : (σ.waiters (.lock l)).head? = none := by
        rw [Machine.waiters, hwaiters]
        rfl
      obtain ⟨hmem, hbound⟩ := ih max
      constructor
      · rcases hmem with heq | ⟨l', hl', hw⟩
        · exact .inl heq
        · exact .inr ⟨l', List.mem_cons_of_mem l hl', hw⟩
      · rintro p (rfl | ⟨l', hl', w, hw, rfl⟩)
        · exact hbound (.inl rfl)
        · rcases List.mem_cons.1 hl' with rfl | hl'
          · rw [hnone] at hw
            cases hw
          · exact hbound (.inr ⟨l', hl', w, hw, rfl⟩)
    | cons highest rest =>
      have hsome : (σ.waiters (.lock l)).head? = some highest := by
        rw [Machine.waiters, hwaiters]
        rfl
      dsimp only
      have hif : max ≤ (if max < σ.eff highest then σ.eff highest else max) ∧
          σ.eff highest ≤ (if max < σ.eff highest then σ.eff highest else max) ∧
          ((if max < σ.eff highest then σ.eff highest else max) = max ∨
            (if max < σ.eff highest then σ.eff highest else max) = σ.eff highest) := by
        split <;> omega
      generalize (if max < σ.eff highest then σ.eff highest else max) = max' at hif ⊢
      obtain ⟨hmax, hhighest, hone⟩ := hif
      obtain ⟨hmem, hbound⟩ := ih max'
      refine ⟨?_, ?_⟩
      · rcases hmem with heq | ⟨l', hl', hw⟩
        · rcases hone with rfl | rfl
          · exact .inl heq
          · exact .inr ⟨l, List.mem_cons_self, highest, hsome, heq⟩
        · exact .inr ⟨l', List.mem_cons_of_mem l hl', hw⟩
      · have hle := hbound (.inl rfl)
        rintro p (rfl | ⟨l', hl', w, hw, rfl⟩)
        · exact hmax.trans hle
        · rcases List.mem_cons.1 hl' with rfl | hl'
          · rw [hsome] at hw
            cases hw
            exact hhighest.trans hle
          · exact hbound (.inr ⟨l', hl', w, hw, rfl⟩)

/-- A priority at most that of `t` itself or of the first waiter of a lock. -/
def Machine.Covered (σ : Machine) (t : ThreadId) (locks : List LockId) (p : ℤ) : Prop :=
  p ≤ (σ.threads t).priority ∨ ∃ l ∈ locks, ∃ w ∈ (σ.waiters (.lock l)).head?, p ≤ σ.eff w

/-- What `update_priority` computes is the highest priority covered. -/
theorem covered_iff (σ : Machine) (t : ThreadId) (locks : List LockId) (p : ℤ) :
    σ.Covered t locks p ↔ p ≤ maxPriority σ locks (σ.threads t).priority := by
  obtain ⟨hmem, hbound⟩ := maxPriority_isGreatest σ locks (σ.threads t).priority
  constructor
  · rintro (hp | ⟨l, hl, w, hw, hp⟩)
    · exact hp.trans (hbound (.inl rfl))
    · exact hp.trans (hbound (.inr ⟨l, hl, w, hw, rfl⟩))
  · intro hp
    rcases hmem with heq | ⟨l, hl, w, hw, heq⟩
    · exact .inl (heq ▸ hp)
    · exact .inr ⟨l, hl, w, hw, heq ▸ hp⟩

/-- What a region does to priorities, locks and the values of semaphores. -/
def Region.Reprices (σ : Machine) : Region → Machine → Prop
  | .create p, σ' => SamePriorities σ σ' ∨
      (priMin ≤ p ∧ p ≤ priMax ∧ SamePriorities (σ.create p) σ')
  | .setPriority p, σ' =>
    SamePriorities (σ.setThread σ.current fun th => { th with priority := p }) σ'
  | .setEffective p, σ' => SamePriorities (σ.setEff σ.current p) σ'
  | .updatePriority, σ' => SamePriorities (σ.setEff σ.current (σ.maxPriority σ.current)) σ'
  | .down s, σ' => ((σ.semas s).value = 0 ∧ SamePriorities σ σ') ∨
      ((σ.semas s).value ≠ 0 ∧
        SamePriorities (σ.setSema s { σ.semas s with value := (σ.semas s).value - 1 }) σ')
  | .tryDown s, σ' => SamePriorities (σ.setSema s (σ.semas s).tryDown.1) σ'
  | .up s, σ' =>
    ∃ sema, sema.value = (σ.semas s).value + 1 ∧ SamePriorities (σ.setSema s sema) σ'
  | .acquire l, σ' => σ.holder l ≠ some σ.current ∧ ∃ σ₁,
      ((σ.holder l = none ∧ σ₁ = σ.donateTo l) ∨ (σ.holder l ≠ none ∧
        (donateLoop (σ.allList.length + 1) σ.current).run (σ.donateTo l) = some ((), σ₁))) ∧
      SamePriorities σ₁ σ'
  | .take l, σ' => SamePriorities (σ.take l) σ'
  | .release l, σ' => σ.holder l = some σ.current ∧ ∃ sema,
      sema.value = (σ.semas (.lock l)).value + 1 ∧
      SamePriorities ((σ.release l).setSema (.lock l) sema) σ'
  | _, σ' => SamePriorities σ σ'

/-- The regions do this and no more. -/
theorem execute_priorities {σ σ' : Machine} (h : Placed σ) {r : Region}
    (hrun : (execute r).run σ = some ((), σ')) : r.Reprices σ σ' := by
  have himpl := h.listed.implemented
  have hdone : ∀ {σ₁ : Machine}, some ((), σ₁) = some ((), σ') → σ' = σ₁ := fun heq =>
    (Prod.mk.inj (Option.some.inj heq)).2.symm
  cases r with
  | create priority =>
    rcases threadCreate_cases hrun with rfl | ⟨hmin, hmax, rfl⟩
    · exact .inl (samePriorities_of_threads rfl rfl rfl rfl rfl)
    · exact .inr ⟨hmin, hmax, .refl _⟩
  | start t =>
    obtain ⟨-, rfl⟩ := threadStart_cases himpl hrun
    exact (samePriorities_unblock σ t).trans (samePriorities_push _ _)
  | yieldTo t =>
    rw [hdone ((yieldTo_run himpl t).symm.trans hrun)]
    show SamePriorities σ _
    split
    · exact samePriorities_yield σ
    · exact .refl σ
  | yield =>
    rw [hdone ((threadYield_run himpl).symm.trans hrun)]
    exact samePriorities_yield σ
  | updatePriority =>
    have hstatus : (σ.threads σ.current).status ≠ .ready := by
      rw [show (σ.threads σ.current).status = .running from (h.listed.running _).2 rfl]
      simp
    rw [hdone ((updatePriority_run hstatus).symm.trans hrun)]
    exact .refl _
  | down s =>
    rcases semaDownTurn_cases himpl hrun with ⟨hzero, rfl⟩ | ⟨hpos, rfl⟩
    · refine .inl ⟨hzero, SamePriorities.trans ?_ (samePriorities_block _)⟩
      refine ⟨fun _ => rfl, fun _ => rfl, fun _ => rfl, fun _ => rfl, fun _ => rfl,
        fun s' => ?_, rfl, rfl⟩
      show (Function.update σ.semas s _ s').value = _
      rcases Classical.em (s' = s) with rfl | hs
      · rw [Function.update_self]
      · rw [Function.update_of_ne hs]
    · exact .inr ⟨hpos, .refl _⟩
  | up s => exact semaUp_priorities himpl hrun
  | acquire l =>
    obtain ⟨hother, σ₁, hdonate, rfl⟩ := lockAcquire_cases hrun
    exact ⟨hother, σ₁, hdonate, samePriorities_push σ₁ _⟩
  | release l =>
    obtain ⟨hheld, hup⟩ := lockRelease_cases ((h.listed.running _).2 rfl) hrun
    exact ⟨hheld, semaUp_priorities (σ := σ.release l) himpl hup⟩
  | sleep ticks =>
    rw [hdone ((sleepUntil_run σ ticks).symm.trans hrun)]
    show SamePriorities σ _
    split
    · have hset := samePriorities_setThread (σ := σ) (t := σ.current)
        (f := fun th => { th with wakeTime := wrap64 (σ.ticks + ticks) })
        fun _ => ⟨rfl, rfl, rfl, rfl⟩
      exact hset.trans (samePriorities_push _ _)
    · exact .refl σ
  | sleepInsert =>
    rw [hdone ((sleepInsert_run himpl).symm.trans hrun)]
    unfold Machine.sleepBlock
    refine SamePriorities.trans ?_ (samePriorities_block _)
    exact samePriorities_of_threads rfl rfl rfl rfl rfl
  | block =>
    rw [hdone ((threadBlock_run (σ := σ.push [.resumed]) himpl).symm.trans hrun)]
    exact (samePriorities_push σ [.resumed]).trans (samePriorities_block _)
  | unblock t =>
    rw [(threadUnblock_cases himpl hrun).2]
    exact samePriorities_unblock σ t
  | setPriority p | setEffective p | tryDown s | take l | slept | resumed =>
    cases hrun
    exact .refl _

end Threads
end CS162

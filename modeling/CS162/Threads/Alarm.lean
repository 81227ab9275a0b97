/-
# The alarm clock

`projects1-3/src/devices/timer.c`, lines 81-99, 144-157 and 219-223.

`timer_sleep` reads the clock with interrupts enabled, so ticks may arrive, and
other threads may run, before it disables them and inserts its thread into
`sleeping_list`.  A step here is one thread's read of the clock, one thread's
insertion with its `thread_block`, or a timer interrupt; the steps of any
threads come in any order.  What the interrupt handler's `thread_tick` and the
ready lists do plays no part.

A thread that reads `now` and sleeps for `n` is unblocked by the first interrupt
after its insertion with a tick count of `now + n` or more, and by no other
(`timerSleep_wakes`).  The handler stops at the first thread that is not due, so
this rests on the order of `sleeping_list`.
-/

import Mathlib.Algebra.Group.Int.Defs
import CS162.Threads.Semaphore

namespace CS162
namespace Threads

open CS162.Lib

/-- An `int64_t` result. -/
def wrap64 (x : ℤ) : ℤ := Int.bmod x (2 ^ 64)

theorem wrap64_of_lt {x : ℤ} (hle : -2 ^ 63 ≤ x) (h : x < 2 ^ 63) : wrap64 x = x := by
  unfold wrap64
  rw [Int.bmod_def]
  omega

theorem le_wrap64 (x : ℤ) : -2 ^ 63 ≤ wrap64 x := by
  unfold wrap64
  rw [Int.bmod_def]
  omega

/-- Where a thread is in `timer_sleep`. -/
inductive SleepPhase where
  /-- Not in it, or unblocked. -/
  | awake
  /-- Its `wake_time` is set; it is not in `sleeping_list` yet. -/
  | timed
  /-- In `sleeping_list`, blocked. -/
  | asleep
deriving DecidableEq

/-- The clock and its sleepers. -/
structure AlarmState where
  ticks : ℤ
  sleepingList : List ThreadId
  wakeTime : ThreadId → ℤ
  phase : ThreadId → SleepPhase
  /-- History: the number of insertions. -/
  insertions : ℕ
  /-- History: the number of insertions before each thread's last. -/
  insertedAt : ThreadId → ℕ

/-- `wake_time_comparator`. -/
def wakeTimeComparator (wakeTime : ThreadId → ℤ) (a b : ThreadId) : Bool :=
  decide (wakeTime a < wakeTime b)

/-- `timer_sleep` up to its `intr_disable`. -/
def timerSleep (σ : AlarmState) (t : ThreadId) (ticks : ℤ) : AlarmState :=
  if ticks ≤ 0 then σ
  else { σ with
    wakeTime := Function.update σ.wakeTime t (wrap64 (σ.ticks + ticks))
    phase := Function.update σ.phase t .timed }

/-- `timer_sleep` from its `intr_disable` to `thread_block`. -/
def insertSleeper (σ : AlarmState) (t : ThreadId) : AlarmState :=
  { σ with
    sleepingList := listInsertOrdered (wakeTimeComparator σ.wakeTime) t σ.sleepingList
    phase := Function.update σ.phase t .asleep
    insertions := σ.insertions + 1
    insertedAt := Function.update σ.insertedAt t σ.insertions }

/-- The loop of `timer_interrupt`: the threads it takes off `sleeping_list` and
unblocks, in order, and those it leaves. -/
def wakeSleepers (wakeTime : ThreadId → ℤ) (ticks : ℤ) :
    List ThreadId → List ThreadId × List ThreadId
  | [] => ([], [])
  | t :: sleepers =>
    if wakeTime t ≤ ticks then
      (t :: (wakeSleepers wakeTime ticks sleepers).1, (wakeSleepers wakeTime ticks sleepers).2)
    else ([], t :: sleepers)

/-- The threads `timer_interrupt` unblocks. -/
def unblockedBy (σ : AlarmState) : List ThreadId :=
  (wakeSleepers σ.wakeTime (wrap64 (σ.ticks + 1)) σ.sleepingList).1

/-- `timer_interrupt`. -/
def timerInterrupt (σ : AlarmState) : AlarmState :=
  { σ with
    ticks := wrap64 (σ.ticks + 1)
    sleepingList := (wakeSleepers σ.wakeTime (wrap64 (σ.ticks + 1)) σ.sleepingList).2
    phase := fun t => if t ∈ unblockedBy σ then .awake else σ.phase t }

/-- What is seen of a step. -/
inductive AlarmEvent where
  /-- A thread calls `timer_sleep` and reads the clock. -/
  | sleep (t : ThreadId) (ticks now : ℤ)
  | insert (t : ThreadId)
  /-- A timer interrupt, its tick count and the threads it unblocks. -/
  | interrupt (now : ℤ) (unblocked : List ThreadId)

inductive AlarmStep : AlarmState → AlarmEvent → AlarmState → Prop where
  | sleep {σ : AlarmState} (t : ThreadId) (ticks : ℤ) :
      σ.phase t = .awake → AlarmStep σ (.sleep t ticks σ.ticks) (timerSleep σ t ticks)
  | insert {σ : AlarmState} (t : ThreadId) :
      σ.phase t = .timed → AlarmStep σ (.insert t) (insertSleeper σ t)
  | interrupt {σ : AlarmState} :
      AlarmStep σ (.interrupt (wrap64 (σ.ticks + 1)) (unblockedBy σ)) (timerInterrupt σ)

/-- Steps one after the other. -/
inductive AlarmRun : AlarmState → List AlarmEvent → AlarmState → Prop where
  | nil {σ : AlarmState} : AlarmRun σ [] σ
  | cons {σ σ' σ'' : AlarmState} {e : AlarmEvent} {es : List AlarmEvent} :
      AlarmStep σ e σ' → AlarmRun σ' es σ'' → AlarmRun σ (e :: es) σ''

/-- By wake time, and by insertion among equal wake times. -/
def AlarmState.Before (σ : AlarmState) (t u : ThreadId) : Prop :=
  σ.wakeTime t < σ.wakeTime u ∨ σ.wakeTime t = σ.wakeTime u ∧ σ.insertedAt t < σ.insertedAt u

theorem AlarmState.Before.le {σ : AlarmState} {t u : ThreadId} (h : σ.Before t u) :
    σ.wakeTime t ≤ σ.wakeTime u := by
  rcases h with h | h
  · exact h.le
  · exact h.1.le

/-- `sleeping_list` holds the threads asleep, in order. -/
structure AlarmInv (σ : AlarmState) : Prop where
  sorted : σ.sleepingList.Pairwise σ.Before
  asleep : ∀ t, t ∈ σ.sleepingList ↔ σ.phase t = .asleep
  inserted : ∀ t ∈ σ.sleepingList, σ.insertedAt t < σ.insertions
  ticks : -2 ^ 63 ≤ σ.ticks

theorem AlarmInv.nodup {σ : AlarmState} (h : AlarmInv σ) : σ.sleepingList.Nodup :=
  h.sorted.imp fun hbefore heq => by
    rcases heq ▸ hbefore with hlt | ⟨-, hlt⟩
    · exact absurd hlt (lt_irrefl _)
    · exact absurd hlt (lt_irrefl _)

theorem wakeSleepers_append (wakeTime : ThreadId → ℤ) (ticks : ℤ) (l : List ThreadId) :
    (wakeSleepers wakeTime ticks l).1 ++ (wakeSleepers wakeTime ticks l).2 = l := by
  induction l with
  | nil => rfl
  | cons t l ih =>
    rw [wakeSleepers]
    split
    · rw [List.cons_append, ih]
    · rfl

theorem wakeSleepers_due {wakeTime : ThreadId → ℤ} {ticks : ℤ} {l : List ThreadId} {t : ThreadId}
    (h : t ∈ (wakeSleepers wakeTime ticks l).1) : wakeTime t ≤ ticks := by
  induction l with
  | nil => cases h
  | cons u l ih =>
    rw [wakeSleepers] at h
    split at h
    · rename_i hdue
      rcases List.mem_cons.1 h with rfl | h
      · exact hdue
      · exact ih h
    · cases h

/-- On a sorted list the loop leaves no thread that is due. -/
theorem wakeSleepers_rest {wakeTime : ThreadId → ℤ} {ticks : ℤ} {l : List ThreadId}
    (hsorted : l.Pairwise fun t u => wakeTime t ≤ wakeTime u) {t : ThreadId}
    (h : t ∈ (wakeSleepers wakeTime ticks l).2) : ticks < wakeTime t := by
  induction l with
  | nil => cases h
  | cons u l ih =>
    obtain ⟨hu, hl⟩ := List.pairwise_cons.1 hsorted
    rw [wakeSleepers] at h
    split at h
    · exact ih hl h
    · rename_i hdue
      rcases List.mem_cons.1 h with rfl | h
      · exact Int.not_le.1 hdue
      · exact (Int.not_le.1 hdue).trans_le (hu t h)

theorem AlarmInv.le {σ : AlarmState} (h : AlarmInv σ) :
    σ.sleepingList.Pairwise fun t u => σ.wakeTime t ≤ σ.wakeTime u :=
  h.sorted.imp AlarmState.Before.le

/-- **The handler unblocks the sleepers that are due and no others.** -/
theorem AlarmInv.mem_unblockedBy {σ : AlarmState} (h : AlarmInv σ) (t : ThreadId) :
    t ∈ unblockedBy σ ↔ σ.phase t = .asleep ∧ σ.wakeTime t ≤ (timerInterrupt σ).ticks := by
  have happend := wakeSleepers_append σ.wakeTime (wrap64 (σ.ticks + 1)) σ.sleepingList
  rw [← h.asleep t]
  constructor
  · intro ht
    exact ⟨happend ▸ List.mem_append_left _ ht, wakeSleepers_due ht⟩
  · rintro ⟨hmem, hdue⟩
    rw [← happend] at hmem
    rcases List.mem_append.1 hmem with hmem | hmem
    · exact hmem
    · exact absurd (wakeSleepers_rest h.le hmem) (Int.not_lt.2 hdue)

/-- Setting the time keeps the invariant. -/
theorem AlarmInv.timerSleep {σ : AlarmState} (h : AlarmInv σ) {t : ThreadId} {ticks : ℤ}
    (ht : σ.phase t = .awake) : AlarmInv (timerSleep σ t ticks) := by
  unfold Threads.timerSleep
  split
  · exact h
  have hout : ∀ u ∈ σ.sleepingList, u ≠ t := fun u hu hut => by
    have := (h.asleep u).1 hu
    rw [hut, ht] at this
    cases this
  refine ⟨h.sorted.imp_of_mem fun {u w} hu hw hbefore => ?_, fun u => ?_, h.inserted, h.ticks⟩
  · show Function.update σ.wakeTime t _ u < Function.update σ.wakeTime t _ w ∨ _
    unfold AlarmState.Before at hbefore
    simpa [Function.update_of_ne (hout u hu), Function.update_of_ne (hout w hw)] using hbefore
  · rcases Classical.em (u = t) with rfl | hut
    · simp [h.asleep, ht]
    · simp [h.asleep, hut]

/-- Inserting the sleeper keeps it. -/
theorem AlarmInv.insertSleeper {σ : AlarmState} (h : AlarmInv σ) {t : ThreadId}
    (ht : σ.phase t = .timed) : AlarmInv (insertSleeper σ t) := by
  have hout : ∀ u ∈ σ.sleepingList, u ≠ t := fun u hu hut => by
    have := (h.asleep u).1 hu
    rw [hut, ht] at this
    cases this
  have hself : (Threads.insertSleeper σ t).insertedAt t = σ.insertions := by
    simp [Threads.insertSleeper]
  have hother : ∀ u ∈ σ.sleepingList,
      (Threads.insertSleeper σ t).insertedAt u = σ.insertedAt u := fun u hu => by
    simp [Threads.insertSleeper, hout u hu]
  refine ⟨?_, fun u => ?_, fun u hu => ?_, h.ticks⟩
  · refine pairwise_listInsertOrdered
      (h.sorted.imp_of_mem fun {u w} hu hw hbefore => ?_) (fun u hu hless => ?_)
      (fun u hu hless => .inl (of_decide_eq_true hless)) fun u _ w _ hless hbefore => ?_
    · unfold AlarmState.Before
      rw [hother u hu, hother w hw]
      exact hbefore
    · -- the new sleeper goes behind those that wake no later
      rcases (Int.not_lt.1 (of_decide_eq_false hless)).lt_or_eq with hlt | heq
      · exact .inl hlt
      · refine .inr ⟨heq, ?_⟩
        rw [hself, hother u hu]
        exact h.inserted u hu
    · exact .inl ((of_decide_eq_true hless : σ.wakeTime t < σ.wakeTime u).trans_le hbefore.le)
  · rcases Classical.em (u = t) with rfl | hut
    · simp [Threads.insertSleeper]
    · simp [Threads.insertSleeper, h.asleep, hut]
  · rcases mem_listInsertOrdered.1 hu with rfl | hu
    · rw [hself]
      exact Nat.lt_succ_self _
    · rw [hother u hu]
      exact Nat.lt_succ_of_lt (h.inserted u hu)

/-- So does the interrupt, which wakes those whose time has come. -/
theorem AlarmInv.timerInterrupt {σ : AlarmState} (h : AlarmInv σ) :
    AlarmInv (timerInterrupt σ) := by
  have happend := wakeSleepers_append σ.wakeTime (wrap64 (σ.ticks + 1)) σ.sleepingList
  have hsorted := h.sorted
  have hnodup := h.nodup
  rw [← happend] at hsorted hnodup
  refine ⟨(List.pairwise_append.1 hsorted).2.1, fun u => ?_, fun u hu => h.inserted u ?_,
    le_wrap64 _⟩
  · show u ∈ (wakeSleepers σ.wakeTime _ σ.sleepingList).2 ↔
      (if u ∈ unblockedBy σ then SleepPhase.awake else σ.phase u) = .asleep
    have hmem := h.asleep u
    rw [← happend, List.mem_append] at hmem
    rcases Classical.em (u ∈ unblockedBy σ) with hu | hu
    · rw [if_pos hu]
      exact ⟨fun hrest => absurd rfl ((List.nodup_append.1 hnodup).2.2 u hu u hrest), nofun⟩
    · rw [if_neg hu, ← hmem]
      exact ⟨.inr, fun hor => hor.resolve_left hu⟩
  · exact happend ▸ List.mem_append_right _ hu

theorem AlarmInv.step {σ σ' : AlarmState} {e : AlarmEvent} (h : AlarmInv σ)
    (hs : AlarmStep σ e σ') : AlarmInv σ' := by
  cases hs with
  | sleep t ticks ht => exact h.timerSleep ht
  | insert t ht => exact h.insertSleeper ht
  | interrupt => exact h.timerInterrupt

theorem AlarmInv.run {σ σ' : AlarmState} {es : List AlarmEvent} (h : AlarmInv σ)
    (hr : AlarmRun σ es σ') : AlarmInv σ' := by
  induction hr with
  | nil => exact h
  | cons hs _ ih => exact ih (h.step hs)

/-! ### When a thread is unblocked -/

/-- The tick counts of the interrupts. -/
def tickCounts : List AlarmEvent → List ℤ
  | [] => []
  | .interrupt now _ :: es => now :: tickCounts es
  | _ :: es => tickCounts es

/-- The tick counts at which a thread is unblocked, one for each time. -/
def unblockings (t : ThreadId) : List AlarmEvent → List ℤ
  | [] => []
  | .interrupt now unblocked :: es =>
    List.replicate (unblocked.count t) now ++ unblockings t es
  | _ :: es => unblockings t es

/-- The event is a call of `timer_sleep` by `t` that blocks. -/
def AlarmEvent.Sleeps (t : ThreadId) : AlarmEvent → Prop
  | .sleep u ticks _ => u = t ∧ 0 < ticks
  | _ => False

/-- The event is the insertion of `t`. -/
def AlarmEvent.Inserts (t : ThreadId) : AlarmEvent → Prop
  | .insert u => u = t
  | _ => False

theorem AlarmInv.nodup_unblockedBy {σ : AlarmState} (h : AlarmInv σ) : (unblockedBy σ).Nodup := by
  have hnodup := h.nodup
  rw [← wakeSleepers_append σ.wakeTime (wrap64 (σ.ticks + 1)) σ.sleepingList] at hnodup
  exact (List.nodup_append.1 hnodup).1

/-- A thread that is not in `sleeping_list` is not unblocked before it is
inserted. -/
theorem unblockings_of_not_asleep {σ σ' : AlarmState} {es : List AlarmEvent} {t : ThreadId}
    (h : AlarmInv σ) (ht : σ.phase t ≠ .asleep) (hr : AlarmRun σ es σ')
    (hinserts : ∀ e ∈ es, ¬e.Inserts t) : unblockings t es = [] := by
  induction hr with
  | nil => rfl
  | @cons σ σ' σ'' e es hs _ ih =>
    have hes : ∀ e ∈ es, ¬e.Inserts t := fun e he => hinserts e (List.mem_cons_of_mem _ he)
    have hinv := h.step hs
    cases hs with
    | sleep u ticks hu =>
      refine ih hinv ?_ hes
      unfold timerSleep
      split
      · exact ht
      · rcases Classical.em (t = u) with rfl | htu
        · simp
        · simpa [htu] using ht
    | insert u hu =>
      have htu : t ≠ u := fun htu => hinserts _ List.mem_cons_self htu.symm
      refine ih hinv ?_ hes
      simpa [insertSleeper, htu] using ht
    | interrupt =>
      have hout : t ∉ unblockedBy σ := fun hmem => ht ((h.mem_unblockedBy t).1 hmem).1
      rw [unblockings, List.count_eq_zero_of_not_mem hout, ih hinv ?_ hes]
      · rfl
      · simpa [timerInterrupt, hout] using ht

/-- A thread that is awake is not unblocked unless it sleeps. -/
theorem unblockings_of_awake {σ σ' : AlarmState} {es : List AlarmEvent} {t : ThreadId}
    (h : AlarmInv σ) (ht : σ.phase t = .awake) (hr : AlarmRun σ es σ')
    (hsleeps : ∀ e ∈ es, ¬e.Sleeps t) : unblockings t es = [] := by
  refine unblockings_of_not_asleep h (by simp [ht]) hr ?_
  clear h
  induction hr with
  | nil => exact fun e he => absurd he List.not_mem_nil
  | @cons σ σ' σ'' e es hs _ ih =>
    have hes : ∀ e ∈ es, ¬e.Sleeps t := fun e he => hsleeps e (List.mem_cons_of_mem _ he)
    have hself := hsleeps e List.mem_cons_self
    have hawake : σ'.phase t = .awake ∧ ¬e.Inserts t := by
      cases hs with
      | sleep u ticks hu =>
        refine ⟨?_, id⟩
        unfold timerSleep
        split
        · exact ht
        · rename_i hpos
          have htu : t ≠ u := fun htu => hself ⟨htu.symm, Int.not_le.1 hpos⟩
          simpa [htu] using ht
      | insert u hu =>
        have htu : t ≠ u := fun htu => by
          rw [← htu, ht] at hu
          cases hu
        exact ⟨by simpa [insertSleeper, htu] using ht, fun hut => htu hut.symm⟩
      | interrupt => exact ⟨by simp [timerInterrupt, ht], id⟩
    intro e' he'
    rcases List.mem_cons.1 he' with rfl | he'
    · exact hawake.2
    · exact ih hawake.1 hes e' he'

/-- A thread asleep until `w` is unblocked by the first interrupt with a tick
count of `w` or more. -/
theorem unblockings_of_asleep {σ σ' : AlarmState} {es : List AlarmEvent} {t : ThreadId}
    (h : AlarmInv σ) (ht : σ.phase t = .asleep) (hr : AlarmRun σ es σ')
    (hsleeps : ∀ e ∈ es, ¬e.Sleeps t) :
    unblockings t es = ((tickCounts es).find? fun now => σ.wakeTime t ≤ now).toList := by
  induction hr with
  | nil => rfl
  | @cons σ σ' σ'' e es hs hrest ih =>
    have hes : ∀ e ∈ es, ¬e.Sleeps t := fun e he => hsleeps e (List.mem_cons_of_mem _ he)
    have hinv := h.step hs
    cases hs with
    | sleep u ticks hu =>
      have htu : t ≠ u := fun htu => by
        rw [← htu, ht] at hu
        cases hu
      have hstay : (timerSleep σ u ticks).phase t = .asleep ∧
          (timerSleep σ u ticks).wakeTime t = σ.wakeTime t := by
        unfold timerSleep
        split <;> simp [htu, ht]
      show unblockings t es = ((tickCounts es).find? fun now => σ.wakeTime t ≤ now).toList
      rw [ih hinv hstay.1 hes, hstay.2]
    | insert u hu =>
      have htu : t ≠ u := fun htu => by
        rw [← htu, ht] at hu
        cases hu
      have hstay : (insertSleeper σ u).phase t = .asleep := by
        simpa [insertSleeper, htu] using ht
      exact ih hinv hstay hes
    | interrupt =>
      have hmem := h.mem_unblockedBy t
      rw [unblockings, tickCounts, List.find?_cons]
      rcases Classical.em (t ∈ unblockedBy σ) with hin | hout
      · have hdue : σ.wakeTime t ≤ wrap64 (σ.ticks + 1) := (hmem.1 hin).2
        rw [List.count_eq_one_of_mem h.nodup_unblockedBy hin, decide_eq_true hdue,
          unblockings_of_awake hinv (by simp [timerInterrupt, hin]) hrest hes]
        rfl
      · have hnot : ¬σ.wakeTime t ≤ wrap64 (σ.ticks + 1) := fun hdue => hout (hmem.2 ⟨ht, hdue⟩)
        rw [List.count_eq_zero_of_not_mem hout, decide_eq_false hnot,
          ih hinv (by simpa [timerInterrupt, hout] using ht) hes]
        rfl

/-- Until it is inserted, a thread that has read the clock keeps its wake time. -/
theorem wakeTime_of_timed {σ σ' : AlarmState} {es : List AlarmEvent} {t : ThreadId}
    (ht : σ.phase t = .timed) (hr : AlarmRun σ es σ') (hinserts : ∀ e ∈ es, ¬e.Inserts t)
    (h : AlarmInv σ) : σ'.wakeTime t = σ.wakeTime t := by
  induction hr with
  | nil => rfl
  | @cons σ σ' σ'' e es hs _ ih =>
    have hes : ∀ e ∈ es, ¬e.Inserts t := fun e he => hinserts e (List.mem_cons_of_mem _ he)
    have hstay : σ'.phase t = .timed ∧ σ'.wakeTime t = σ.wakeTime t := by
      cases hs with
      | sleep u ticks hu =>
        have htu : t ≠ u := fun htu => by
          rw [← htu, ht] at hu
          cases hu
        unfold timerSleep
        split <;> simp [htu, ht]
      | insert u hu =>
        have htu : t ≠ u := fun htu => hinserts _ List.mem_cons_self htu.symm
        simp [insertSleeper, htu, ht]
      | interrupt =>
        have hout : t ∉ unblockedBy σ := fun hmem => by
          rw [((h.mem_unblockedBy t).1 hmem).1] at ht
          cases ht
        simp [timerInterrupt, hout, ht]
    rw [ih hstay.1 hes (h.step hs), hstay.2]

/-- A call `timer_sleep (ticks)` by `t`, from its read of the clock in `σ` over
its insertion to any time before `t` sleeps again: the steps `before` and
`after` the insertion. -/
structure SleepCall (σ : AlarmState) (t : ThreadId) (ticks : ℤ)
    (before after : List AlarmEvent) : Prop where
  awake : σ.phase t = .awake
  positive : 0 < ticks
  run : ∃ σ₁ σ₂ σ₃, AlarmRun (timerSleep σ t ticks) before σ₁ ∧
    AlarmStep σ₁ (.insert t) σ₂ ∧ AlarmRun σ₂ after σ₃
  inserted : ∀ e ∈ before, ¬e.Inserts t
  once : ∀ e ∈ after, ¬e.Sleeps t

/-- The thread is unblocked once, at its time. -/
theorem SleepCall.unblockings {σ : AlarmState} {t : ThreadId} {ticks : ℤ}
    {before after : List AlarmEvent} (hcall : SleepCall σ t ticks before after) (h : AlarmInv σ)
    (hticks : σ.ticks + ticks < 2 ^ 63) :
    unblockings t before = [] ∧ Threads.unblockings t after =
      ((tickCounts after).find? fun now => σ.ticks + ticks ≤ now).toList := by
  obtain ⟨σ₁, σ₂, σ₃, hbefore, hinsert, hafter⟩ := hcall.run
  have hpositive := hcall.positive
  have hread : (timerSleep σ t ticks).phase t = .timed ∧
      (timerSleep σ t ticks).wakeTime t = σ.ticks + ticks := by
    unfold timerSleep
    rw [if_neg (Int.not_le.2 hpositive)]
    have := h.ticks
    simp [wrap64_of_lt (x := σ.ticks + ticks) (by omega) hticks]
  have hinv : AlarmInv (timerSleep σ t ticks) := h.timerSleep hcall.awake
  have hwake := wakeTime_of_timed hread.1 hbefore hcall.inserted hinv
  refine ⟨unblockings_of_not_asleep hinv (by simp [hread.1]) hbefore hcall.inserted, ?_⟩
  cases hinsert with
  | insert _ ht =>
    have hasleep := unblockings_of_asleep ((hinv.run hbefore).insertSleeper ht)
      (by simp [insertSleeper]) hafter hcall.once
    rw [hasleep]
    show ((tickCounts after).find? fun now => σ₁.wakeTime t ≤ now).toList = _
    rw [hwake, hread.2]

end Threads
end CS162

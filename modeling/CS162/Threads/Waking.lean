/-
# Whom `sema_up` wakes

`projects1-3/src/threads/synch.c`, lines 106-131.

Waiters are queued in the order they came, and their priorities change while they wait.
`sema_up` sorts them when it is called, except in an interrupt handler.  So a thread wakes the
longest queued of the waiters of the highest priority, and an interrupt handler the first of the
waiters as they are (`semaUp_wakes`, `not_wakesHighest`).
-/

import CS162.Lib.SortStability
import CS162.Threads.Effects

namespace CS162
namespace Threads

open CS162.Basis CS162.Lib

/-- `t` is the first of the waiters that none is above. -/
def FirstHighest (effective : ThreadId → ℤ) (before : List ThreadId) (t : ThreadId)
    (behind : List ThreadId) : Prop :=
  (∀ w ∈ before, effective w < effective t) ∧ ∀ w ∈ behind, effective w ≤ effective t

/-- `sema_up` returns and has unblocked one thread, from a place among the waiters that `place`
allows; it keeps the other waiters and counts up. -/
def Wakes (σ : Machine) (intrContext : Bool) (s : SemaId)
    (place : List ThreadId → ThreadId → List ThreadId → Prop) : Prop :=
  Returns (semaUp intrContext s) σ fun _ σ' => ∃ before t behind sema,
    (σ.semas s).waiters = before ++ t :: behind ∧ place before t behind ∧
    sema.waiters.Perm (before ++ behind) ∧ sema.value = (σ.semas s).value + 1 ∧
    σ' = if intrContext = false ∧ σ.eff σ.current < σ.eff t
      then ((σ.setSema s sema).unblock t).yield else (σ.setSema s sema).unblock t

/-- The threads queued on a semaphore are blocked. -/
def Machine.WaitersBlocked (σ : Machine) (s : SemaId) : Prop :=
  ∀ w ∈ (σ.semas s).waiters, (σ.threads w).status = .blocked

/-- **Sorting at the call** brings the longest queued of the highest waiters to the front. -/
theorem Semaphore.up_sorted {sema : Semaphore} (effective : ThreadId → ℤ)
    (hwaiting : sema.waiters ≠ []) :
    ∃ before t behind rest, sema.up false effective = some (some t, ⟨sema.value + 1, rest⟩) ∧
      sema.waiters = before ++ t :: behind ∧ FirstHighest effective before t behind ∧
      rest.Perm (before ++ behind) := by
  have hweak := strictWeak_threadPriorityComparator effective
  obtain ⟨sorted, hsort, hperm, -⟩ := listSort_returns hweak sema.waiters
  have hup : sema.up false effective = match sorted with
      | unblocked :: waiters => some (some unblocked, ⟨sema.value + 1, waiters⟩)
      | [] => none := by
    unfold Semaphore.up
    split
    · rename_i hnil
      exact absurd hnil hwaiting
    · rw [show sortWaiters false effective sema.waiters = some sorted from hsort]
      cases sorted with
      | nil => rfl
      | cons t rest => rfl
  cases sorted with
  | nil => exact absurd hperm.symm.eq_nil hwaiting
  | cons t rest =>
    obtain ⟨before, behind, hplace, hrest, hbefore, hbehind⟩ := listSort_front hweak hsort
    refine ⟨before, t, behind, rest, hup, hplace, ⟨fun w hw => ?_, fun w hw => ?_⟩, hrest⟩
    · exact of_decide_eq_true (hbefore w hw)
    · exact not_lt.1 (of_decide_eq_false (hbehind w hw))

/-- In an interrupt handler the front stays where it is. -/
theorem Semaphore.up_unsorted {sema : Semaphore} (effective : ThreadId → ℤ)
    (hwaiting : sema.waiters ≠ []) :
    ∃ t behind, sema.up true effective = some (some t, ⟨sema.value + 1, behind⟩) ∧
      sema.waiters = t :: behind := by
  obtain ⟨t, behind, hcons⟩ := List.exists_cons_of_ne_nil hwaiting
  refine ⟨t, behind, ?_, hcons⟩
  unfold Semaphore.up sortWaiters
  rw [hcons]
  rfl

/-- `sema_up` after it has chosen whom to unblock. -/
theorem semaUp_run {σ : Machine} (h : σ.policy.Implemented) {intrContext : Bool} {s : SemaId}
    {t : ThreadId} {sema : Semaphore} (hup : (σ.semas s).up intrContext σ.eff = some (some t, sema))
    (ht : (σ.threads t).status = .blocked) :
    (semaUp intrContext s).run σ = some ((), if intrContext = false ∧ σ.eff σ.current < σ.eff t
      then ((σ.setSema s sema).unblock t).yield else (σ.setSema s sema).unblock t) := by
  unfold semaUp
  rw [run_bind_of_run (a := σ) (t := σ) rfl, hup]
  dsimp only
  rw [run_bind_of_run (t := σ.setSema s sema) rfl,
    run_bind_of_run (threadUnblock_run (σ := σ.setSema s sema) h ht)]
  split
  · exact threadYield_run (σ := (σ.setSema s sema).unblock t) h
  · rfl

/-- **`sema_up`** of a thread unblocks the longest queued of the waiters of the highest effective
priority, and `sema_up` of an interrupt handler the first waiter. -/
theorem semaUp_wakes {σ : Machine} {s : SemaId} (h : σ.policy.Implemented)
    (hwaiting : (σ.semas s).waiters ≠ []) (hblocked : σ.WaitersBlocked s) :
    Wakes σ false s (FirstHighest σ.eff) ∧ Wakes σ true s fun before _ _ => before = [] := by
  constructor
  · obtain ⟨before, t, behind, rest, hup, hplace, hhighest, hrest⟩ :=
      Semaphore.up_sorted σ.eff hwaiting
    have ht : (σ.threads t).status = .blocked :=
      hblocked t (hplace ▸ List.mem_append_right _ List.mem_cons_self)
    exact ⟨(), _, semaUp_run h hup ht, before, t, behind, _, hplace, hhighest, hrest, rfl, rfl⟩
  · obtain ⟨t, behind, hup, hcons⟩ := Semaphore.up_unsorted σ.eff hwaiting
    have ht : (σ.threads t).status = .blocked := hblocked t (hcons ▸ List.mem_cons_self)
    exact ⟨(), _, semaUp_run h hup ht, [], t, behind, _, hcons, rfl, .refl _, rfl, rfl⟩

/-- Two threads wait: thread 2 of priority 0, and behind it thread 3 of priority 63. -/
def twoWaiters : Machine :=
  ((boot .prio (fun _ => 0) fun _ => true).setThread 2 (fun _ => initThread 0) |>.setThread 3
    fun _ => initThread 63).setSema (.other 0) ⟨0, [2, 3]⟩

theorem twoWaiters_blocked : twoWaiters.WaitersBlocked (.other 0) := by
  intro w hw
  have hw' : w ∈ [2, 3] := hw
  rcases List.mem_cons.1 hw' with rfl | hw'
  · rfl
  · rw [List.mem_singleton.1 hw']
    rfl

/-- A thread wakes thread 3, the higher of the two; an interrupt wakes thread 2. -/
theorem semaUp_wakes_two :
    twoWaiters.policy.Implemented ∧
      (Wakes twoWaiters false (.other 0) (FirstHighest twoWaiters.eff) ∧
        Wakes twoWaiters true (.other 0) fun before _ _ => before = []) :=
  ⟨.inr rfl, semaUp_wakes (.inr rfl) (List.cons_ne_nil 2 [3]) twoWaiters_blocked⟩

/-- An interrupt handler wakes thread 2, though thread 3 is above it. -/
theorem not_wakesHighest : ¬∀ (σ : Machine) (intrContext : Bool) (s : SemaId),
    σ.policy.Implemented → (σ.semas s).waiters ≠ [] → σ.WaitersBlocked s →
      Wakes σ intrContext s (FirstHighest σ.eff) := by
  intro hall
  have hwakes := hall twoWaiters true (.other 0) (.inr rfl) (List.cons_ne_nil 2 [3])
    twoWaiters_blocked
  have hup : (twoWaiters.semas (.other 0)).up true twoWaiters.eff = some (some 2, ⟨1, [3]⟩) := rfl
  have hrun := semaUp_run (σ := twoWaiters) (.inr rfl) hup rfl
  obtain ⟨before, t, behind, sema, hplace, ⟨hbefore, hbehind⟩, hperm, -, hσ'⟩ :=
    hwakes.of_run hrun
  rw [if_neg (by simp), if_neg (by simp)] at hσ'
  have hsema : sema = ⟨1, [3]⟩ := by
    have hsemas := congrArg (fun τ : Machine => τ.semas (.other 0)) hσ'
    simpa [Machine.unblock, Machine.enqueue, Machine.setSema, Machine.setStatus,
      Machine.setThread] using hsemas.symm
  have hplace' : [2, 3] = before ++ t :: behind := hplace
  rw [hsema] at hperm
  cases before with
  | nil =>
    obtain ⟨rfl, rfl⟩ := List.cons.inj hplace'
    have hle := hbehind 3 (List.mem_singleton.2 rfl)
    exact absurd hle (by decide)
  | cons w before =>
    obtain ⟨rfl, -⟩ := List.cons.inj hplace'
    have hmem : (2 : ThreadId) ∈ [3] := hperm.mem_iff.2 List.mem_cons_self
    exact absurd hmem (by decide)

end Threads
end CS162

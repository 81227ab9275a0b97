/-
# Semaphores

`projects1-3/src/threads/synch.c`, lines 43-131.

A region that runs with interrupts disabled is one step.  `sema_down` is such a
region up to `thread_block`, and again from there on each time the thread is
scheduled: `downTurn` is one turn of its loop.  A waiter that `sema_up` unblocks
has to find the value positive when it resumes, and another thread may have
taken the permit by then.

`SemaStep` lets any number of threads call the three functions in any order, the
effective priorities being whatever they are at each `sema_up`.  The permits are
conserved, and while a thread waits there is a woken thread for every permit
(`semaphore_conserves`).
-/

import Mathlib.Algebra.Group.Int.Defs
import Mathlib.Algebra.Group.Nat.Defs
import CS162.Lib.KernelList

namespace CS162
namespace Threads

open CS162.Lib

/-- The address of a `struct thread`. -/
abbrev ThreadId := ℕ

/-- `struct semaphore`. -/
structure Semaphore where
  value : UInt32
  waiters : List ThreadId

/-- `thread_priority_comparator`, for the effective priorities of the threads. -/
def threadPriorityComparator (effective : ThreadId → ℤ) (a b : ThreadId) : Bool :=
  decide (effective b < effective a)

theorem strictWeak_threadPriorityComparator (effective : ThreadId → ℤ) :
    StrictWeak (threadPriorityComparator effective) where
  asymm a b h := by
    simp only [threadPriorityComparator, decide_eq_true_eq, decide_eq_false_iff_not] at h ⊢
    omega
  cotrans a b c hab hbc := by
    simp only [threadPriorityComparator, decide_eq_false_iff_not] at hab hbc ⊢
    omega

/-- `sema_init`. -/
def semaInit (value : UInt32) : Semaphore := ⟨value, []⟩

/-- One turn of the loop of `sema_down` by thread `t`: it queues `t`, which then
blocks, or leaves the loop and takes a permit. -/
def Semaphore.downTurn (sema : Semaphore) (t : ThreadId) : Semaphore × Bool :=
  if sema.value = 0 then ({ sema with waiters := sema.waiters ++ [t] }, false)
  else ({ sema with value := sema.value - 1 }, true)

/-- `sema_try_down`. -/
def Semaphore.tryDown (sema : Semaphore) : Semaphore × Bool :=
  if 0 < sema.value then ({ sema with value := sema.value - 1 }, true) else (sema, false)

/-- The waiters as `sema_up` orders them: sorted, except in an interrupt handler. -/
def sortWaiters (intrContext : Bool) (effective : ThreadId → ℤ) (waiters : List ThreadId) :
    Option (List ThreadId) :=
  if intrContext then some waiters else listSort (threadPriorityComparator effective) waiters

theorem sortWaiters_perm {intrContext : Bool} {effective : ThreadId → ℤ}
    {waiters sorted : List ThreadId} (h : sortWaiters intrContext effective waiters = some sorted) :
    sorted.Perm waiters := by
  cases intrContext with
  | true => exact Option.some.inj h ▸ .refl _
  | false => exact listSort_perm h

theorem sortWaiters_returns (intrContext : Bool) (effective : ThreadId → ℤ)
    (waiters : List ThreadId) : ∃ sorted, sortWaiters intrContext effective waiters = some sorted := by
  cases intrContext with
  | true => exact ⟨_, rfl⟩
  | false =>
    obtain ⟨sorted, hsort, -⟩ :=
      listSort_returns (strictWeak_threadPriorityComparator effective) waiters
    exact ⟨sorted, hsort⟩

/-- `sema_up` up to its `thread_yield`: the waiter it unblocks, and the
semaphore. -/
def Semaphore.up (sema : Semaphore) (intrContext : Bool) (effective : ThreadId → ℤ) :
    Option (Option ThreadId × Semaphore) :=
  match sema.waiters with
  | [] => some (none, { sema with value := sema.value + 1 })
  | _ :: _ =>
    match sortWaiters intrContext effective sema.waiters with
    | some (unblocked :: waiters) => some (some unblocked, ⟨sema.value + 1, waiters⟩)
    | _ => none

/-- What `sema_up` does: it counts up, and the first waiter is unblocked if
there is one. -/
theorem Semaphore.up_cases {sema sema' : Semaphore} {intrContext : Bool}
    {effective : ThreadId → ℤ} {unblocked : Option ThreadId}
    (h : sema.up intrContext effective = some (unblocked, sema')) :
    sema'.value = sema.value + 1 ∧ (unblocked.toList ++ sema'.waiters).Perm sema.waiters ∧
      (unblocked = none → sema.waiters = []) := by
  unfold up at h
  split at h
  case h_1 hnil =>
    obtain ⟨rfl, rfl⟩ := Prod.mk.inj (Option.some.inj h)
    exact ⟨rfl, .refl _, fun _ => hnil⟩
  case h_2 hcons =>
    split at h
    case h_1 u rest hsort =>
      obtain ⟨rfl, rfl⟩ := Prod.mk.inj (Option.some.inj h)
      exact ⟨rfl, sortWaiters_perm hsort, fun h => by cases h⟩
    case h_2 => cases h

/-- A thread that calls `sema_up` unblocks a waiter of the highest priority. -/
theorem Semaphore.up_max {sema sema' : Semaphore} {effective : ThreadId → ℤ} {t : ThreadId}
    (h : sema.up false effective = some (some t, sema')) :
    ∀ w ∈ sema.waiters, effective w ≤ effective t := by
  unfold up at h
  split at h
  case h_1 => cases h
  case h_2 =>
    obtain ⟨sorted, hsort, hperm, hsorted⟩ :=
      listSort_returns (strictWeak_threadPriorityComparator effective) sema.waiters
    rw [show sortWaiters false effective sema.waiters = some sorted from hsort] at h
    intro w hw
    cases sorted with
    | nil => cases h
    | cons u rest =>
      cases h
      rcases List.mem_cons.1 (hperm.symm.mem_iff.1 hw) with rfl | hw
      · exact le_rfl
      · have hle := (List.pairwise_cons.1 hsorted).1 w hw
        simpa [threadPriorityComparator] using hle

/-- `sema_up` returns. -/
theorem Semaphore.up_returns (sema : Semaphore) (intrContext : Bool) (effective : ThreadId → ℤ) :
    ∃ r, sema.up intrContext effective = some r := by
  unfold up
  split
  case h_1 => exact ⟨_, rfl⟩
  case h_2 w ws hcons =>
    obtain ⟨sorted, hsort⟩ := sortWaiters_returns intrContext effective sema.waiters
    have hperm := sortWaiters_perm hsort
    rw [hsort]
    cases sorted with
    | nil =>
      rw [hcons] at hperm
      exact absurd hperm.symm.eq_nil (by simp)
    | cons u rest => exact ⟨_, rfl⟩

/-! ### Any number of threads on one semaphore -/

/-- A semaphore and the threads inside its functions. -/
structure SemaState where
  sema : Semaphore
  /-- The threads a `sema_up` unblocked that have not resumed in `sema_down`. -/
  woken : List ThreadId
  /-- The `sema_up`s completed. -/
  ups : ℕ
  /-- The `sema_down`s and successful `sema_try_down`s completed. -/
  downs : ℕ

/-- A turn of `sema_down` by `t`. -/
def SemaState.downTurn (σ : SemaState) (t : ThreadId) : SemaState :=
  { σ with
    sema := (σ.sema.downTurn t).1
    downs := σ.downs + (σ.sema.downTurn t).2.toNat }

/-- `sema_try_down`. -/
def SemaState.tryDown (σ : SemaState) : SemaState :=
  { σ with
    sema := σ.sema.tryDown.1
    downs := σ.downs + σ.sema.tryDown.2.toNat }

/-- One region with interrupts disabled, by any thread or interrupt handler. -/
inductive SemaStep : SemaState → SemaState → Prop where
  /-- A thread calls `sema_down`. -/
  | down {σ : SemaState} (t : ThreadId) :
      t ∉ σ.sema.waiters → t ∉ σ.woken → SemaStep σ (σ.downTurn t)
  /-- A woken thread is scheduled and resumes in `sema_down`. -/
  | resume {σ : SemaState} (t : ThreadId) :
      t ∈ σ.woken → SemaStep σ ({ σ with woken := σ.woken.erase t }.downTurn t)
  | tryDown {σ : SemaState} : SemaStep σ σ.tryDown
  | up {σ : SemaState} (intrContext : Bool) (effective : ThreadId → ℤ)
      (unblocked : Option ThreadId) (sema : Semaphore) :
      σ.sema.up intrContext effective = some (unblocked, sema) →
      SemaStep σ ⟨sema, unblocked.toList ++ σ.woken, σ.ups + 1, σ.downs⟩

/-- A semaphore just initialised to `v`. -/
def SemaState.init (v : UInt32) : SemaState := ⟨semaInit v, [], 0, 0⟩

/-- The states reached from a semaphore initialised to `v`. -/
inductive SemaReach (v : UInt32) : SemaState → Prop where
  | init : SemaReach v (.init v)
  | step {σ σ' : SemaState} : SemaReach v σ → SemaStep σ σ' → SemaReach v σ'

/-- What every step keeps: the count of permits modulo the width of `value`, and
a woken thread for every permit while a thread waits.  A thread that has resumed
and not yet tested `value` leaves a `slack` of one. -/
structure SemaInv (v : UInt32) (slack : ℕ) (σ : SemaState) : Prop where
  waiters : σ.sema.waiters.Nodup
  woken : σ.woken.Nodup
  apart : ∀ t ∈ σ.woken, t ∉ σ.sema.waiters
  count : (σ.sema.value.toNat + σ.downs) % 2 ^ 32 = (v.toNat + σ.ups) % 2 ^ 32
  /-- No permit is taken that was not put there. -/
  le : σ.sema.value.toNat + σ.downs ≤ v.toNat + σ.ups
  enough : σ.sema.waiters ≠ [] → σ.sema.value.toNat ≤ σ.woken.length + slack

theorem semaInv_init (v : UInt32) : SemaInv v 0 (.init v) where
  waiters := List.nodup_nil
  woken := List.nodup_nil
  apart _ ht := absurd ht List.not_mem_nil
  count := rfl
  le := le_rfl
  enough h := absurd rfl h

theorem SemaInv.mono {v : UInt32} {σ : SemaState} {k k' : ℕ} (h : SemaInv v k σ) (hk : k ≤ k') :
    SemaInv v k' σ :=
  { h with enough := fun hne => (h.enough hne).trans (Nat.add_le_add_left hk _) }

/-- Leaving the woken threads costs one of them. -/
theorem SemaInv.erase {v : UInt32} {σ : SemaState} (h : SemaInv v 0 σ) (t : ThreadId) :
    SemaInv v 1 { σ with woken := σ.woken.erase t } where
  waiters := h.waiters
  woken := h.woken.erase t
  apart u hu := h.apart u (List.mem_of_mem_erase hu)
  count := h.count
  le := h.le
  enough hne := by
    have hle := h.enough hne
    have hlength := List.le_length_erase (a := t) (l := σ.woken)
    show σ.sema.value.toNat ≤ (σ.woken.erase t).length + 1
    omega

theorem value_pos {value : UInt32} (h : value ≠ 0) : 0 < value.toNat :=
  Nat.pos_of_ne_zero fun hzero => h (UInt32.toNat_inj.1 hzero)

theorem toNat_sub_one {value : UInt32} (h : value ≠ 0) : (value - 1).toNat = value.toNat - 1 :=
  UInt32.toNat_sub_of_le value 1 (UInt32.le_iff_toNat_le.2 (value_pos h))

/-- So does taking a permit. -/
theorem SemaInv.takePermit {v : UInt32} {σ : SemaState} (h : SemaInv v 1 σ)
    (hvalue : σ.sema.value ≠ 0) :
    SemaInv v 0 ⟨⟨σ.sema.value - 1, σ.sema.waiters⟩, σ.woken, σ.ups, σ.downs + 1⟩ := by
  have hpos := value_pos hvalue
  have hsub := toNat_sub_one hvalue
  have hcount := h.count
  have hle := h.le
  refine ⟨h.waiters, h.woken, h.apart, ?_, ?_, fun hne => ?_⟩
  · show ((σ.sema.value - 1).toNat + (σ.downs + 1)) % 2 ^ 32 = _
    rw [← hcount]
    congr 1
    omega
  · show (σ.sema.value - 1).toNat + (σ.downs + 1) ≤ v.toNat + σ.ups
    omega
  · have henough := h.enough hne
    show (σ.sema.value - 1).toNat ≤ σ.woken.length + 0
    omega

/-- A turn of the loop uses up the slack: the thread takes a permit, or there is
none. -/
theorem SemaInv.downTurn {v : UInt32} {σ : SemaState} (h : SemaInv v 1 σ) {t : ThreadId}
    (hwaiters : t ∉ σ.sema.waiters) (hwoken : t ∉ σ.woken) : SemaInv v 0 (σ.downTurn t) := by
  unfold SemaState.downTurn Semaphore.downTurn
  split
  · rename_i hzero
    have hvalue : σ.sema.value.toNat = 0 := by rw [hzero]; rfl
    refine ⟨?_, h.woken, fun u hu hmem => ?_, h.count, h.le, fun _ => ?_⟩
    · exact List.nodup_append.2 ⟨h.waiters, List.nodup_singleton t, fun u hu w hw huw =>
        hwaiters (by rw [← List.mem_singleton.1 hw, ← huw]; exact hu)⟩
    · rcases List.mem_append.1 hmem with hmem | hmem
      · exact h.apart u hu hmem
      · exact hwoken (List.mem_singleton.1 hmem ▸ hu)
    · show σ.sema.value.toNat ≤ σ.woken.length + 0
      omega
  · rename_i hvalue
    exact h.takePermit hvalue

theorem SemaInv.tryDown {v : UInt32} {σ : SemaState} (h : SemaInv v 0 σ) :
    SemaInv v 0 σ.tryDown := by
  unfold SemaState.tryDown Semaphore.tryDown
  split
  · rename_i hpos
    exact (h.mono (Nat.zero_le 1)).takePermit fun hzero => by
      rw [hzero] at hpos
      exact absurd hpos (by decide)
  · exact h

/-- `sema_up` keeps the invariant. -/
theorem SemaInv.up {v : UInt32} {σ : SemaState} (h : SemaInv v 0 σ) {intrContext : Bool}
    {effective : ThreadId → ℤ} {unblocked : Option ThreadId} {sema : Semaphore}
    (hup : σ.sema.up intrContext effective = some (unblocked, sema)) :
    SemaInv v 0 ⟨sema, unblocked.toList ++ σ.woken, σ.ups + 1, σ.downs⟩ := by
  obtain ⟨hvalue, hperm, hnone⟩ := Semaphore.up_cases hup
  have hnodup := hperm.symm.nodup h.waiters
  have hmem : ∀ t, t ∈ unblocked.toList ∨ t ∈ sema.waiters ↔ t ∈ σ.sema.waiters := fun t => by
    rw [← List.mem_append, hperm.mem_iff]
  have hmod : sema.value.toNat = (σ.sema.value.toNat + 1) % 2 ^ 32 := by
    rw [hvalue, UInt32.toNat_add]
    rfl
  have hcount := h.count
  have hle := h.le
  refine ⟨(List.nodup_append.1 hnodup).2.1, ?_, fun t ht htw => ?_, ?_, ?_, fun hne => ?_⟩
  · refine List.nodup_append.2 ⟨(List.nodup_append.1 hnodup).1, h.woken, fun t ht u hu htu => ?_⟩
    exact h.apart u hu ((hmem u).1 (.inl (htu ▸ ht)))
  · rcases List.mem_append.1 ht with ht | ht
    · exact (List.nodup_append.1 hnodup).2.2 t ht t htw rfl
    · exact h.apart t ht ((hmem t).1 (.inr htw))
  · show (sema.value.toNat + σ.downs) % 2 ^ 32 = (v.toNat + (σ.ups + 1)) % 2 ^ 32
    omega
  · show sema.value.toNat + σ.downs ≤ v.toNat + (σ.ups + 1)
    omega
  · have hwaiting : σ.sema.waiters ≠ [] := fun hnil => by
      rw [hnil] at hperm
      exact hne (List.append_eq_nil_iff.1 hperm.eq_nil).2
    have henough := h.enough hwaiting
    cases unblocked with
    | none => exact absurd (hnone rfl) hwaiting
    | some u =>
      show sema.value.toNat ≤ (u :: σ.woken).length + 0
      rw [List.length_cons]
      omega

theorem SemaInv.step {v : UInt32} {σ σ' : SemaState} (h : SemaInv v 0 σ) (hs : SemaStep σ σ') :
    SemaInv v 0 σ' := by
  cases hs with
  | down t hwaiters hwoken => exact (h.mono (Nat.zero_le 1)).downTurn hwaiters hwoken
  | resume t ht =>
    exact (h.erase t).downTurn (h.apart t ht) fun hmem =>
      (List.Nodup.mem_erase_iff h.woken).1 hmem |>.1 rfl
  | tryDown => exact h.tryDown
  | up intrContext effective unblocked sema hup => exact h.up hup

theorem SemaReach.inv {v : UInt32} {σ : SemaState} (h : SemaReach v σ) : SemaInv v 0 σ := by
  induction h with
  | init => exact semaInv_init v
  | step _ hs ih => exact ih.step hs

/-- **Permits are conserved and no wake-up is lost.**  In every state reached, no permit was taken
that was not put there, and `value` is the initial value and the `sema_up`s less the `sema_down`s if
and only if that is a value it can hold; and while a thread waits, as many threads as `value` have
been unblocked and have not resumed. -/
theorem semaphore_conserves {v : UInt32} {σ : SemaState} (h : SemaReach v σ) :
    (0 ≤ (v.toNat : ℤ) + σ.ups - σ.downs ∧
      ((σ.sema.value.toNat : ℤ) = v.toNat + σ.ups - σ.downs ↔
        (v.toNat : ℤ) + σ.ups - σ.downs < 2 ^ 32)) ∧
    (σ.woken.Nodup ∧ (∀ t ∈ σ.woken, t ∉ σ.sema.waiters) ∧
      (σ.sema.waiters ≠ [] → σ.sema.value.toNat ≤ σ.woken.length)) := by
  have hinv := h.inv
  have hcount := hinv.count
  have hle := hinv.le
  have hlt := σ.sema.value.toNat_lt
  refine ⟨⟨?_, ?_, ?_⟩, hinv.woken, hinv.apart, hinv.enough⟩ <;> omega

/-- A thread waits for a permit, is woken, loses the permit to `sema_try_down` and queues again. -/
theorem semaphore_conserves_barging :
    (0 ≤ ((0 : UInt32).toNat : ℤ) + (1 : ℕ) - (1 : ℕ) ∧
      (((0 : UInt32).toNat : ℤ) = (0 : UInt32).toNat + (1 : ℕ) - (1 : ℕ) ↔
        ((0 : UInt32).toNat : ℤ) + (1 : ℕ) - (1 : ℕ) < 2 ^ 32)) ∧
    (([] : List ThreadId).Nodup ∧ (∀ t ∈ ([] : List ThreadId), t ∉ [7]) ∧
      ([7] ≠ ([] : List ThreadId) → (0 : UInt32).toNat ≤ ([] : List ThreadId).length)) := by
  have hwait := SemaReach.step .init (.down (σ := .init 0) 7 (by decide) (by decide))
  have hup := hwait.step (.up false (fun _ => 31) (some 7) ⟨1, []⟩ rfl)
  have htaken := hup.step .tryDown
  exact semaphore_conserves (htaken.step (.resume 7 (by decide)))

/-- A semaphore initialised to the largest value counts up to zero: bounding the
`sema_up`s alone does not do. -/
theorem not_value_of_few_ups :
    ¬∀ (v : UInt32) (σ : SemaState), SemaReach v σ → σ.ups < 2 ^ 32 →
      (σ.sema.value.toNat : ℤ) = v.toNat + σ.ups - σ.downs := by
  intro h
  have hreach := SemaReach.step .init
    (.up (σ := .init 4294967295) false (fun _ => 31) none ⟨0, []⟩ rfl)
  exact absurd (h _ _ hreach (by decide)) (by decide)

end Threads
end CS162

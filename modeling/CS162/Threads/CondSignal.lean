/-
# Whom `cond_signal` wakes

`projects1-3/src/threads/synch.c`, lines 44-49 and 321-403, with the `struct semaphore_elem` of
`synch.h`, the one that `sema_comparator` fits.

A thread in `cond_wait` is represented by a `struct semaphore_elem` on its stack.  `cond_wait` sets
`elem` and `semaphore`, and nothing sets `thread`: `sema_comparator` goes through the word that the
stack held there.  `priorityAt` is what it reads as an effective priority through a pointer, `none`
where the access faults.  Signals wake the right thread where what is read orders the waiters like
their priorities (`condSignal_wakes_iff`).
-/

import CS162.Lib.SortStability
import CS162.Threads.Semaphore

namespace CS162
namespace Threads

open CS162.Lib

namespace Cond

/-- `struct semaphore_elem`, without its list element. -/
structure SemaphoreElem where
  /-- The thread on whose stack it is. -/
  owner : ThreadId
  semaphore : Semaphore
  thread : ℕ

/-- `waiters` of a `struct condition`. -/
abbrev Waiters := List SemaphoreElem

/-- `cond_wait` up to the `thread_block` of its `sema_down`, by a thread whose stack holds the word
`stack` where `thread` is. -/
def condWait (stack : ℕ) (t : ThreadId) (waiters : Waiters) : Waiters :=
  waiters ++ [⟨t, ((semaInit 0).downTurn t).1, stack⟩]

/-- The owner is in the `sema_down` of `cond_wait`. -/
def SemaphoreElem.Blocked (w : SemaphoreElem) : Prop := w.semaphore = ⟨0, [w.owner]⟩

/-- Each waiter is blocked in one `cond_wait`. -/
structure Waiting (waiters : Waiters) : Prop where
  blocked : ∀ w ∈ waiters, w.Blocked
  owners : (waiters.map SemaphoreElem.owner).Nodup

theorem waiting_nil : Waiting [] := ⟨nofun, List.nodup_nil⟩

theorem Waiting.condWait {waiters : Waiters} (h : Waiting waiters) (stack : ℕ) {t : ThreadId}
    (ht : t ∉ waiters.map SemaphoreElem.owner) : Waiting (condWait stack t waiters) := by
  constructor
  · intro w hw
    rcases List.mem_append.1 hw with hw | hw
    · exact h.blocked w hw
    · rw [List.mem_singleton.1 hw]
      rfl
  · unfold Cond.condWait
    rw [List.map_append]
    exact List.Nodup.append h.owners (List.nodup_singleton t) (by simpa using ht)

theorem Waiting.of_perm {waiters waiters' : Waiters} (h : Waiting waiters)
    (hperm : waiters'.Perm waiters) : Waiting waiters' :=
  ⟨fun w hw => h.blocked w (hperm.subset hw), (hperm.map _).symm.nodup h.owners⟩

theorem Waiting.tail {w : SemaphoreElem} {waiters : Waiters} (h : Waiting (w :: waiters)) :
    Waiting waiters :=
  ⟨fun v hv => h.blocked v (List.mem_cons_of_mem w hv), (List.nodup_cons.1 h.owners).2⟩

section Signal

variable (priorityAt : ℕ → Option ℤ) (effective : ThreadId → ℤ)

/-- `sema_comparator`, where nothing faults. -/
def semaComparator (a b : SemaphoreElem) : Bool :=
  decide ((priorityAt b.thread).getD 0 < (priorityAt a.thread).getD 0)

/-- `list_sort (&cond->waiters, sema_comparator, NULL)`.  Of two elements or more,
`find_end_of_run` has each compared. -/
def sortBySema (waiters : Waiters) : Option Waiters :=
  if 1 < waiters.length ∧ ∃ w ∈ waiters, priorityAt w.thread = none then none
  else listSort (semaComparator priorityAt) waiters

/-- What a `cond_signal` has done: the element taken off the waiters, its semaphore and the thread
that `sema_up` unblocked, and the waiters. -/
structure Signalled where
  elem : SemaphoreElem
  semaphore : Semaphore
  unblocked : Option ThreadId
  waiters : Waiters

/-- `cond_signal`. -/
def condSignal (waiters : Waiters) : Option Signalled := do
  let sorted ← if waiters.isEmpty then some waiters else sortBySema priorityAt waiters
  match sorted with
  | [] => none
  | w :: rest =>
    let (unblocked, sema) ← w.semaphore.up false effective
    return ⟨w, sema, unblocked, rest⟩

/-- `cond_broadcast`, for at most `fuel` signals: the threads unblocked. -/
def condBroadcast : ℕ → Waiters → Option (List ThreadId)
  | _, [] => some []
  | 0, _ :: _ => none
  | fuel + 1, w :: waiters => do
    let s ← condSignal priorityAt effective (w :: waiters)
    let released ← condBroadcast fuel s.waiters
    return s.unblocked.toList ++ released

/-- The signal wakes a waiter of the highest effective priority and leaves the others queued. -/
def SignalWakes (waiters : Waiters) : Prop :=
  ∃ s, condSignal priorityAt effective waiters = some s ∧ (s.elem :: s.waiters).Perm waiters ∧
    s.unblocked = some s.elem.owner ∧ s.semaphore = ⟨1, []⟩ ∧
    ∀ v ∈ waiters, effective v.owner ≤ effective s.elem.owner

/-- The broadcast releases all the waiters, in non-increasing order of effective priority. -/
def BroadcastReleases (waiters : Waiters) : Prop :=
  ∃ released, condBroadcast priorityAt effective waiters.length waiters = some released ∧
    released.Perm (waiters.map SemaphoreElem.owner) ∧
    released.Pairwise fun t u => effective u ≤ effective t

/-- `sema_comparator` can read through each waiter's `thread`, or is not called. -/
def Readable (waiters : Waiters) : Prop :=
  waiters.length ≤ 1 ∨ ∀ w ∈ waiters, priorityAt w.thread ≠ none

/-- The first of those waiters for which the most is read. -/
def front (waiters : Waiters) : Option SemaphoreElem :=
  waiters.find? fun w => waiters.all fun v => !semaComparator priorityAt v w

/-- What is read orders two waiters as their effective priorities do. -/
def Agrees (v w : SemaphoreElem) : Prop :=
  if semaComparator priorityAt w v = true then effective v.owner ≤ effective w.owner
  else effective w.owner ≤ effective v.owner

end Signal

variable {priorityAt : ℕ → Option ℤ} {effective : ThreadId → ℤ} {waiters sorted rest : Waiters}
  {w : SemaphoreElem}

theorem strictWeak_semaComparator (priorityAt : ℕ → Option ℤ) :
    StrictWeak (semaComparator priorityAt) where
  asymm a b h := by
    simp only [semaComparator, decide_eq_true_eq, decide_eq_false_iff_not] at h ⊢
    omega
  cotrans a b c hab hbc := by
    simp only [semaComparator, decide_eq_false_iff_not] at hab hbc ⊢
    omega

/-- `sema_up` of a waiter's semaphore unblocks the waiter. -/
theorem up_blocked (h : w.Blocked) :
    w.semaphore.up false effective = some (some w.owner, ⟨1, []⟩) := by
  rw [h]
  rfl

theorem sortBySema_of_readable (h : Readable priorityAt waiters) :
    sortBySema priorityAt waiters = listSort (semaComparator priorityAt) waiters := by
  unfold sortBySema
  refine if_neg ?_
  rintro ⟨hlen, w, hw, hnone⟩
  rcases h with h | h
  · omega
  · exact h w hw hnone

theorem sortBySema_of_not (h : ¬Readable priorityAt waiters) :
    sortBySema priorityAt waiters = none := by
  unfold Readable at h
  push Not at h
  unfold sortBySema
  exact if_pos h

/-- A signal takes the first of the sorted waiters. -/
theorem condSignal_sorted (effective : ThreadId → ℤ) (h : Waiting waiters)
    (hsort : listSort (semaComparator priorityAt) waiters = some (w :: rest))
    (hread : Readable priorityAt waiters) :
    condSignal priorityAt effective waiters = some ⟨w, ⟨1, []⟩, some w.owner, rest⟩ := by
  have hperm := listSort_perm hsort
  have hw : w.Blocked := h.blocked w (hperm.subset List.mem_cons_self)
  have hne : waiters.isEmpty = false := by
    cases waiters with
    | nil => exact absurd hperm.eq_nil (List.cons_ne_nil w rest)
    | cons v waiters => rfl
  unfold condSignal
  rw [hne, if_neg nofun, sortBySema_of_readable hread, hsort]
  dsimp only [Option.bind_eq_bind, Option.bind_some]
  rw [up_blocked hw]
  rfl

/-- A signal that reads through a bad pointer does not return. -/
theorem condSignal_faults (effective : ThreadId → ℤ) (hread : ¬Readable priorityAt waiters) :
    condSignal priorityAt effective waiters = none := by
  have hne : waiters.isEmpty = false := by
    cases waiters with
    | nil => exact absurd (.inl (Nat.zero_le 1)) hread
    | cons v waiters => rfl
  unfold condSignal
  rw [hne, if_neg nofun, sortBySema_of_not hread]
  rfl

/-- The first of the sorted waiters is the front. -/
theorem front_of_sorted (hsort : listSort (semaComparator priorityAt) waiters = some (w :: rest)) :
    front priorityAt waiters = some w := by
  have hweak := strictWeak_semaComparator priorityAt
  obtain ⟨before, behind, rfl, -, hbefore, hbehind⟩ := listSort_front hweak hsort
  refine List.find?_eq_some_iff_append.2 ⟨?_, before, behind, rfl, fun v hv => ?_⟩
  · refine List.all_eq_true.2 fun v hv => ?_
    rw [Bool.not_eq_true']
    rcases List.mem_append.1 hv with hv | hv
    · exact hweak.asymm w v (hbefore v hv)
    · rcases List.mem_cons.1 hv with rfl | hv
      · exact hweak.irrefl v
      · exact hbehind v hv
  · have hnot : ¬((before ++ w :: behind).all fun u => !semaComparator priorityAt u v) = true :=
      fun hall => by
        have hw := List.all_eq_true.1 hall w (List.mem_append_right before List.mem_cons_self)
        rw [hbefore v hv] at hw
        cases hw
    rw [Bool.not_eq_true']
    exact (Bool.not_eq_true _).mp hnot

/-- Sorted waiters, from some that are. -/
theorem exists_sorted (priorityAt : ℕ → Option ℤ) (hne : waiters ≠ []) :
    ∃ w rest, listSort (semaComparator priorityAt) waiters = some (w :: rest) ∧
      (w :: rest).Perm waiters ∧ Sorted (semaComparator priorityAt) (w :: rest) := by
  obtain ⟨sorted, hsort, hperm, hsorted⟩ :=
    listSort_returns (strictWeak_semaComparator priorityAt) waiters
  cases sorted with
  | nil => exact absurd hperm.symm.eq_nil hne
  | cons w rest => exact ⟨w, rest, hsort, hperm, hsorted⟩

theorem Readable.tail (h : Readable priorityAt waiters) (hperm : (w :: rest).Perm waiters) :
    Readable priorityAt rest := by
  rcases h with h | h
  · left
    have hlen := hperm.length_eq
    rw [List.length_cons] at hlen
    omega
  · exact .inr fun v hv => h v (hperm.subset (List.mem_cons_of_mem w hv))

/-- **A broadcast** releases the waiters as the first of its signals sorts them. -/
theorem condBroadcast_sorted (effective : ThreadId → ℤ) {fuel : ℕ} (h : Waiting waiters)
    (hread : Readable priorityAt waiters)
    (hsort : listSort (semaComparator priorityAt) waiters = some sorted)
    (hfuel : waiters.length ≤ fuel) :
    condBroadcast priorityAt effective fuel waiters =
      some (sorted.map SemaphoreElem.owner) := by
  induction fuel generalizing waiters sorted with
  | zero =>
    obtain rfl := List.length_eq_zero_iff.1 (Nat.le_zero.1 hfuel)
    obtain rfl := (listSort_perm hsort).eq_nil
    rfl
  | succ fuel ih =>
    cases waiters with
    | nil =>
      obtain rfl := (listSort_perm hsort).eq_nil
      rfl
    | cons v waiters =>
      obtain ⟨w, rest, hsort', hperm, hsorted⟩ :=
        exists_sorted priorityAt (List.cons_ne_nil v waiters)
      obtain rfl := Option.some.inj (hsort.symm.trans hsort')
      have hlen := hperm.length_eq
      rw [List.length_cons, List.length_cons] at hlen
      rw [List.length_cons] at hfuel
      have hrest := ih (h.of_perm hperm).tail (hread.tail hperm)
        (listSort_of_sorted (List.pairwise_cons.1 hsorted).2) (by omega)
      rw [condBroadcast, condSignal_sorted effective h hsort hread]
      dsimp only [Option.bind_eq_bind, Option.bind_some]
      rw [hrest]
      rfl

/-- **Signals and broadcasts**, for the threads blocked in `cond_wait`: when they wake them in the
order of their effective priorities. -/
theorem condSignal_wakes_iff (h : Waiting waiters) (hne : waiters ≠ []) :
    (SignalWakes priorityAt effective waiters ↔ Readable priorityAt waiters ∧
      ∀ w ∈ front priorityAt waiters, ∀ v ∈ waiters, effective v.owner ≤ effective w.owner) ∧
    (BroadcastReleases priorityAt effective waiters ↔ Readable priorityAt waiters ∧
      waiters.Pairwise (Agrees priorityAt effective)) := by
  obtain ⟨w, rest, hsort, hperm, hsorted⟩ := exists_sorted priorityAt hne
  have hfront := front_of_sorted hsort
  by_cases hread : Readable priorityAt waiters
  · have hsignal := condSignal_sorted effective h hsort hread
    have hbroadcast := condBroadcast_sorted effective h hread hsort le_rfl
    constructor
    · constructor
      · rintro ⟨s, hs, -, -, -, hhighest⟩
        obtain rfl := Option.some.inj (hsignal.symm.trans hs)
        refine ⟨hread, fun u hu => ?_⟩
        rw [hfront] at hu
        rwa [← Option.some.inj hu]
      · rintro ⟨-, hhighest⟩
        exact ⟨_, hsignal, hperm, rfl, rfl, hhighest w hfront⟩
    · have hnodup : waiters.Nodup := h.owners.of_map _
      have hiff := listSort_pairwise_iff (strictWeak_semaComparator priorityAt) hsort hnodup
        (R := fun t u : SemaphoreElem => effective u.owner ≤ effective t.owner)
      constructor
      · rintro ⟨released, hrel, -, horder⟩
        obtain rfl := Option.some.inj (hbroadcast.symm.trans hrel)
        exact ⟨hread, hiff.1 (List.pairwise_map.1 horder)⟩
      · rintro ⟨-, hagrees⟩
        exact ⟨_, hbroadcast, hperm.map _, List.pairwise_map.2 (hiff.2 hagrees)⟩
  · have hsignal := condSignal_faults effective hread
    constructor
    · refine ⟨?_, fun hcond => absurd hcond.1 hread⟩
      rintro ⟨s, hs, -⟩
      rw [hsignal] at hs
      cases hs
    · refine ⟨?_, fun hcond => absurd hcond.1 hread⟩
      rintro ⟨released, hrel, -⟩
      cases waiters with
      | nil => exact absurd rfl hne
      | cons v waiters =>
        rw [List.length_cons, condBroadcast, hsignal] at hrel
        cases hrel

/-- Thread 2, of priority 0, and then thread 3, of priority 63, wait with one word on their
stacks. -/
def twoWaiting : Waiters := condWait 7 3 (condWait 7 2 [])

theorem twoWaiting_waiting : Waiting twoWaiting :=
  (waiting_nil.condWait 7 (by decide)).condWait 7 (by decide)

/-- Both equivalences, of the two threads that wait. -/
theorem condSignal_wakes_two :
    (SignalWakes (fun _ => some 31) (fun t => if t = 2 then 0 else 63) twoWaiting ↔
      Readable (fun _ => some 31) twoWaiting ∧ ∀ w ∈ front (fun _ => some 31) twoWaiting,
        ∀ v ∈ twoWaiting, (if v.owner = 2 then 0 else 63 : ℤ) ≤ if w.owner = 2 then 0 else 63) ∧
    (BroadcastReleases (fun _ => some 31) (fun t => if t = 2 then 0 else 63) twoWaiting ↔
      Readable (fun _ => some 31) twoWaiting ∧
        twoWaiting.Pairwise (Agrees (fun _ => some 31) fun t => if t = 2 then 0 else 63)) :=
  condSignal_wakes_iff twoWaiting_waiting (List.cons_ne_nil _ _)

/-- The signal wakes thread 2. -/
theorem not_signalWakes : ¬∀ (priorityAt : ℕ → Option ℤ) (effective : ThreadId → ℤ)
    (waiters : Waiters), Waiting waiters → waiters ≠ [] →
      SignalWakes priorityAt effective waiters ∧ BroadcastReleases priorityAt effective waiters := by
  intro hall
  obtain ⟨⟨s, hs, -, -, -, hhighest⟩, -⟩ := hall (fun _ => some 31)
    (fun t => if t = 2 then 0 else 63) twoWaiting twoWaiting_waiting (List.cons_ne_nil _ _)
  have hsignal : condSignal (fun _ => some 31) (fun t => if t = 2 then 0 else 63) twoWaiting =
      some ⟨⟨2, ⟨0, [2]⟩, 7⟩, ⟨1, []⟩, some 2, [⟨3, ⟨0, [3]⟩, 7⟩]⟩ := rfl
  obtain rfl := Option.some.inj (hsignal.symm.trans hs)
  have hle := hhighest ⟨3, ⟨0, [3]⟩, 7⟩ (List.mem_cons_of_mem _ List.mem_cons_self)
  exact absurd hle (by decide)

end Cond

end Threads
end CS162

/-
# Locks in use by any number of threads

`projects1-3/src/threads/synch.c`, lines 179-252 and 356-369: `lock_acquire`,
`lock_try_acquire`, `lock_release` and the release and the acquire in
`cond_wait`.

A region with interrupts disabled is one step, and so is what a thread runs
between two of them; any thread takes the next step.  The assertions run with
interrupts enabled, before the region, and a step past them needs them to hold.
`lock_try_acquire` can be preempted after its `sema_try_down` and before it sets
`holder`.  The effective priorities are whatever they are at each `sema_up`, and
the waiter of a `cond_wait` is signalled at any time.

`list_remove` of an element that is on no list writes through the links the
element happens to hold; `lists` is `none` from then on.

A lock's permit is with one thread at a time (`lock_exclusive`).  The locks a
thread holds are those on its `donated_locks` in exactly the runs in which no
`lock_try_acquire` that succeeded gets to set `holder` (`lock_lists`).
-/

import CS162.Threads.Thread

namespace CS162
namespace Threads

/-- Where a thread is in the functions of the locks. -/
inductive LockPoint where
  | outside
  /-- In `lock_acquire`, past its assertions. -/
  | acquiring (l : LockId)
  /-- In the `sema_down` of `lock_acquire`, queued or woken. -/
  | blocked (l : LockId)
  /-- In `lock_try_acquire`, past its assertions. -/
  | trying (l : LockId)
  /-- In `lock_try_acquire`, about to set `holder`. -/
  | took (l : LockId)
  /-- In `lock_release`, past its assertions; `wait` if `cond_wait` calls it. -/
  | releasing (wait : Bool) (l : LockId)
  /-- In `cond_wait`, in the `sema_down` of its own semaphore. -/
  | waiting (l : LockId)
deriving DecidableEq

/-- The locks and the threads inside their functions. -/
structure LockState where
  semas : LockId → Semaphore
  holder : LockId → Option ThreadId
  /-- `donated_locks` of each thread, while the links are those of lists. -/
  lists : Option (ThreadId → List LockId)
  point : ThreadId → LockPoint
  /-- History: the threads that have taken the permit of each lock and have not
  put it back. -/
  inside : LockId → List ThreadId

/-- `lock_init` of every lock, before any thread uses one. -/
def LockState.init : LockState where
  semas _ := semaInit 1
  holder _ := none
  lists := some fun _ => []
  point _ := .outside
  inside _ := []

/-- What a thread does in one step. -/
inductive LockAct where
  /-- The assertions of `lock_acquire`, `lock_try_acquire` and `lock_release`. -/
  | acquire (l : LockId)
  | tryAcquire (l : LockId)
  | release (wait : Bool) (l : LockId)
  /-- A turn of `sema_down` and, once it has a permit, the rest of `lock_acquire`. -/
  | down (l : LockId)
  /-- `sema_try_down` in `lock_try_acquire`. -/
  | tryDown (l : LockId)
  /-- The assignment to `holder` in `lock_try_acquire`. -/
  | take (l : LockId)
  /-- The region of `lock_release`. -/
  | give (l : LockId)
  /-- `cond_wait` goes on to the assertions of its `lock_acquire`. -/
  | wake (l : LockId)
deriving DecidableEq

/-- The thread moves to another point. -/
def LockState.goto (σ : LockState) (t : ThreadId) (p : LockPoint) : LockState :=
  { σ with point := Function.update σ.point t p }

/-- `list_push_back (&curr->donated_locks, &lock->elem)`. -/
def LockState.push (σ : LockState) (t : ThreadId) (l : LockId) : LockState :=
  { σ with lists := σ.lists.map fun d => Function.update d t (d t ++ [l]) }

/-- A turn of `sema_down` in `lock_acquire`. -/
def LockState.down (σ : LockState) (t : ThreadId) (l : LockId) : LockState :=
  match (σ.semas l).downTurn t with
  | (sema, false) => { σ with semas := Function.update σ.semas l sema }.goto t (.blocked l)
  | (sema, true) =>
    { σ with
      semas := Function.update σ.semas l sema
      holder := Function.update σ.holder l (some t)
      inside := Function.update σ.inside l (t :: σ.inside l) }.push t l |>.goto t .outside

/-- `sema_try_down` in `lock_try_acquire`. -/
def LockState.tryDown (σ : LockState) (t : ThreadId) (l : LockId) : LockState :=
  match (σ.semas l).tryDown with
  | (_, false) => σ.goto t .outside
  | (sema, true) =>
    { σ with
      semas := Function.update σ.semas l sema
      inside := Function.update σ.inside l (t :: σ.inside l) }.goto t (.took l)

/-- A turn of `sema_down` queues the thread, or it has the lock. -/
theorem LockState.down_cases (σ : LockState) (t : ThreadId) (l : LockId) :
    ((σ.semas l).value = 0 ∧
      σ.down t l = { σ with
        semas := Function.update σ.semas l { σ.semas l with waiters := (σ.semas l).waiters ++ [t] }
        }.goto t (.blocked l)) ∨
    ((σ.semas l).value ≠ 0 ∧
      σ.down t l = ({ σ with
        semas := Function.update σ.semas l { σ.semas l with value := (σ.semas l).value - 1 }
        holder := Function.update σ.holder l (some t)
        inside := Function.update σ.inside l (t :: σ.inside l) }.push t l).goto t .outside) := by
  unfold LockState.down Semaphore.downTurn
  by_cases hzero : (σ.semas l).value = 0
  · exact .inl ⟨hzero, by rw [if_pos hzero]⟩
  · exact .inr ⟨hzero, by rw [if_neg hzero]⟩

/-- `sema_try_down` fails and nothing changes, or the thread has the permit. -/
theorem LockState.tryDown_cases (σ : LockState) (t : ThreadId) (l : LockId) :
    ((σ.semas l).value = 0 ∧ σ.tryDown t l = σ.goto t .outside) ∨
    ((σ.semas l).value ≠ 0 ∧
      σ.tryDown t l = { σ with
        semas := Function.update σ.semas l { σ.semas l with value := (σ.semas l).value - 1 }
        inside := Function.update σ.inside l (t :: σ.inside l) }.goto t (.took l)) := by
  unfold LockState.tryDown Semaphore.tryDown
  by_cases hpos : 0 < (σ.semas l).value
  · exact .inr ⟨UInt32.pos_iff_ne_zero.1 hpos, by rw [if_pos hpos]⟩
  · exact .inl ⟨by simpa [UInt32.pos_iff_ne_zero] using hpos, by rw [if_neg hpos]⟩

/-- The assignment to `holder` in `lock_try_acquire`. -/
def LockState.take (σ : LockState) (t : ThreadId) (l : LockId) : LockState :=
  { σ with holder := Function.update σ.holder l (some t) }.goto t .outside

/-- `list_remove (&lock->elem)`. -/
inductive ListRemove (l : LockId) :
    Option (ThreadId → List LockId) → Option (ThreadId → List LockId) → Prop where
  | listed {d : ThreadId → List LockId} {t : ThreadId} :
      l ∈ d t → ListRemove l (some d) (some fun u => (d u).erase l)
  | unlisted {d : ThreadId → List LockId} : (∀ t, l ∉ d t) → ListRemove l (some d) none
  | broken : ListRemove l none none

/-- The region of `lock_release`, from the lists and the semaphore that its
`list_remove` and `sema_up` leave. -/
def LockState.give (σ : LockState) (t : ThreadId) (l : LockId) (wait : Bool)
    (lists : Option (ThreadId → List LockId)) (sema : Semaphore) : LockState :=
  { σ with
    semas := Function.update σ.semas l sema
    holder := Function.update σ.holder l none
    lists := lists
    inside := Function.update σ.inside l ((σ.inside l).erase t) }.goto t
      (if wait then .waiting l else .outside)

/-- Thread `t` takes its next step. -/
inductive LockStep (t : ThreadId) : LockAct → LockState → LockState → Prop where
  | acquire {σ : LockState} {l : LockId} :
      σ.point t = .outside → σ.holder l ≠ some t →
      LockStep t (.acquire l) σ (σ.goto t (.acquiring l))
  | down {σ : LockState} {l : LockId} :
      σ.point t = .acquiring l → LockStep t (.down l) σ (σ.down t l)
  /-- `sema_up` took the thread off the waiters, and it runs again. -/
  | resume {σ : LockState} {l : LockId} :
      σ.point t = .blocked l → t ∉ (σ.semas l).waiters → LockStep t (.down l) σ (σ.down t l)
  | tryAcquire {σ : LockState} {l : LockId} :
      σ.point t = .outside → σ.holder l ≠ some t →
      LockStep t (.tryAcquire l) σ (σ.goto t (.trying l))
  | tryDown {σ : LockState} {l : LockId} :
      σ.point t = .trying l → LockStep t (.tryDown l) σ (σ.tryDown t l)
  | take {σ : LockState} {l : LockId} :
      σ.point t = .took l → LockStep t (.take l) σ (σ.take t l)
  | release {σ : LockState} {wait : Bool} {l : LockId} :
      σ.point t = .outside → σ.holder l = some t →
      LockStep t (.release wait l) σ (σ.goto t (.releasing wait l))
  | give {σ : LockState} {wait : Bool} {l : LockId}
      (lists : Option (ThreadId → List LockId)) (effective : ThreadId → ℤ)
      (unblocked : Option ThreadId) (sema : Semaphore) :
      σ.point t = .releasing wait l → ListRemove l σ.lists lists →
      (σ.semas l).up false effective = some (unblocked, sema) →
      LockStep t (.give l) σ (σ.give t l wait lists sema)
  | wake {σ : LockState} {l : LockId} :
      σ.point t = .waiting l → σ.holder l ≠ some t →
      LockStep t (.wake l) σ (σ.goto t (.acquiring l))

/-- The states reached, by any threads in any order. -/
inductive LockReach : LockState → Prop where
  | init : LockReach .init
  | step {σ σ' : LockState} {t : ThreadId} {a : LockAct} :
      LockReach σ → LockStep t a σ σ' → LockReach σ'

/-! ### Mutual exclusion -/

/-- The permit of `l` is in its semaphore, or with one thread. -/
def LockState.Permit (σ : LockState) (l : LockId) : Prop :=
  (σ.inside l = [] ∧ (σ.semas l).value = 1) ∨ ∃ t, σ.inside l = [t] ∧ (σ.semas l).value = 0

/-- What every step keeps. -/
structure PermitInv (σ : LockState) : Prop where
  permit : ∀ l, σ.Permit l
  held : ∀ l t, σ.holder l = some t → σ.inside l = [t]
  took : ∀ t l, σ.point t = .took l → σ.inside l = [t] ∧ σ.holder l = none
  releasing : ∀ t wait l, σ.point t = .releasing wait l → σ.holder l = some t

theorem permitInv_init : PermitInv .init where
  permit _ := .inl ⟨rfl, rfl⟩
  held _ _ h := nomatch h
  took _ _ h := nomatch h
  releasing _ _ _ h := nomatch h

/-- A thread with the permit of no lock moves to another point. -/
theorem PermitInv.goto {σ : LockState} (h : PermitInv σ) {t : ThreadId} {p : LockPoint}
    (htook : ∀ l, p = .took l → σ.inside l = [t] ∧ σ.holder l = none)
    (hrel : ∀ wait l, p = .releasing wait l → σ.holder l = some t) : PermitInv (σ.goto t p) where
  permit := h.permit
  held := h.held
  took u l hu := by
    by_cases hut : u = t
    · subst hut
      exact htook l (by simpa [LockState.goto] using hu)
    · exact h.took u l (by simpa [LockState.goto, hut] using hu)
  releasing u wait l hu := by
    by_cases hut : u = t
    · subst hut
      exact hrel wait l (by simpa [LockState.goto] using hu)
    · exact h.releasing u wait l (by simpa [LockState.goto, hut] using hu)

/-- The lists are no part of it. -/
theorem PermitInv.lists {σ : LockState} (h : PermitInv σ)
    (lists : Option (ThreadId → List LockId)) : PermitInv { σ with lists := lists } :=
  ⟨h.permit, h.held, h.took, h.releasing⟩

/-- More threads are queued. -/
theorem PermitInv.queue {σ : LockState} (h : PermitInv σ) {l : LockId} {s : Semaphore}
    (hvalue : s.value = (σ.semas l).value) :
    PermitInv { σ with semas := Function.update σ.semas l s } where
  permit k := by
    by_cases hk : k = l
    · subst hk
      simpa [LockState.Permit, hvalue] using h.permit k
    · simpa [LockState.Permit, hk] using h.permit k
  held := h.held
  took := h.took
  releasing := h.releasing

/-- A thread takes a permit that is there: no thread had it, and the lock has no
holder. -/
theorem PermitInv.free {σ : LockState} (h : PermitInv σ) {l : LockId} (hvalue : (σ.semas l).value ≠ 0) :
    σ.inside l = [] ∧ (σ.semas l).value = 1 ∧ σ.holder l = none := by
  rcases h.permit l with ⟨hinside, hone⟩ | ⟨t, -, hzero⟩
  · refine ⟨hinside, hone, ?_⟩
    cases hh : σ.holder l with
    | none => rfl
    | some t => simp [h.held l t hh] at hinside
  · exact absurd hzero hvalue

/-- The permit of `l` goes to `t`, who becomes the holder or is about to. -/
theorem PermitInv.enter {σ : LockState} (h : PermitInv σ) {l : LockId} {t : ThreadId}
    {s : Semaphore} {holder : Option ThreadId} (hfree : (σ.semas l).value ≠ 0)
    (hvalue : s.value = (σ.semas l).value - 1) (hholder : holder = none ∨ holder = some t) :
    PermitInv { σ with
      semas := Function.update σ.semas l s
      holder := Function.update σ.holder l holder
      inside := Function.update σ.inside l (t :: σ.inside l) } := by
  obtain ⟨hinside, hone, hnone⟩ := h.free hfree
  constructor
  case permit =>
    intro k
    by_cases hk : k = l
    · subst hk
      refine .inr ⟨t, ?_, ?_⟩
      · simp [hinside]
      · simp [hvalue, hone]
    · simpa [LockState.Permit, hk] using h.permit k
  case held =>
    intro k u hu
    by_cases hk : k = l
    · subst hk
      have hu : holder = some u := by simpa using hu
      rcases hholder with hh | hh <;> rw [hh] at hu
      · cases hu
      · cases hu
        simp [hinside]
    · simpa [hk] using h.held k u (by simpa [hk] using hu)
  case took =>
    intro u k hu
    obtain ⟨hin, hno⟩ := h.took u k hu
    have hk : k ≠ l := fun hk => by simp [hk, hinside] at hin
    simp [hk, hin, hno]
  case releasing =>
    intro u wait k hu
    have hh := h.releasing u wait k hu
    have hk : k ≠ l := fun hk => by simp [hk, hnone] at hh
    simp [hk, hh]

theorem PermitInv.down {σ : LockState} (h : PermitInv σ) (t : ThreadId) (l : LockId) :
    PermitInv (σ.down t l) := by
  rcases σ.down_cases t l with ⟨-, hdown⟩ | ⟨hvalue, hdown⟩ <;> rw [hdown]
  · have hqueue := h.queue (l := l)
      (s := { σ.semas l with waiters := (σ.semas l).waiters ++ [t] }) rfl
    exact hqueue.goto (by simp) (by simp)
  · exact ((h.enter hvalue rfl (.inr rfl)).lists _).goto (by simp)
      (by simp)

theorem PermitInv.tryDown {σ : LockState} (h : PermitInv σ) (t : ThreadId) (l : LockId) :
    PermitInv (σ.tryDown t l) := by
  rcases σ.tryDown_cases t l with ⟨-, htry⟩ | ⟨hvalue, htry⟩ <;> rw [htry]
  · exact h.goto (by simp) (by simp)
  · obtain ⟨hinside, -, hnone⟩ := h.free hvalue
    have henter := h.enter (t := t) (s := { σ.semas l with value := (σ.semas l).value - 1 })
      hvalue rfl (.inl rfl)
    rw [← hnone, Function.update_eq_self] at henter
    refine henter.goto (fun k hk => ?_) (by simp)
    cases hk
    exact ⟨by simp [hinside], hnone⟩

/-- A thread that has the permit becomes the holder. -/
theorem PermitInv.take {σ : LockState} (h : PermitInv σ) {t : ThreadId} {l : LockId}
    (hpoint : σ.point t = .took l) : PermitInv (σ.take t l) := by
  obtain ⟨hinside, hnone⟩ := h.took t l hpoint
  constructor
  case permit => exact h.permit
  case held =>
    intro k u hu
    by_cases hk : k = l
    · subst hk
      have hu : t = u := by simpa [LockState.take, LockState.goto] using hu
      exact hu ▸ hinside
    · exact h.held k u (by simpa [LockState.take, LockState.goto, hk] using hu)
  case took =>
    intro u k hu
    have hut : u ≠ t := fun hut => by simp [LockState.take, LockState.goto, hut] at hu
    obtain ⟨hin, hno⟩ := h.took u k (by simpa [LockState.take, LockState.goto, hut] using hu)
    have hk : k ≠ l := fun hk => by
      rw [hk, hinside] at hin
      exact hut (List.cons.inj hin).1.symm
    exact ⟨hin, by simpa [LockState.take, LockState.goto, hk] using hno⟩
  case releasing =>
    intro u wait k hu
    have hut : u ≠ t := fun hut => by simp [LockState.take, LockState.goto, hut] at hu
    have hh := h.releasing u wait k (by simpa [LockState.take, LockState.goto, hut] using hu)
    have hk : k ≠ l := fun hk => by simp [hk, hnone] at hh
    simpa [LockState.take, LockState.goto, hk] using hh

/-- Giving a lock back puts its one permit back. -/
theorem PermitInv.give {σ : LockState} (h : PermitInv σ) {t : ThreadId} {l : LockId} {wait : Bool}
    (lists : Option (ThreadId → List LockId)) {sema : Semaphore}
    (hpoint : σ.point t = .releasing wait l) (hvalue : sema.value = (σ.semas l).value + 1) :
    PermitInv (σ.give t l wait lists sema) := by
  have hholder := h.releasing t wait l hpoint
  have hinside := h.held l t hholder
  have hzero : (σ.semas l).value = 0 := by
    rcases h.permit l with ⟨hin, -⟩ | ⟨u, -, hzero⟩
    · simp [hinside] at hin
    · exact hzero
  constructor
  case permit =>
    intro k
    by_cases hk : k = l
    · subst hk
      refine .inl ⟨?_, ?_⟩
      · simp [LockState.give, LockState.goto, hinside]
      · simp [LockState.give, LockState.goto, hvalue, hzero]
    · simpa [LockState.Permit, LockState.give, LockState.goto, hk] using h.permit k
  case held =>
    intro k u hu
    have hk : k ≠ l := fun hk => by simp [LockState.give, LockState.goto, hk] at hu
    simpa [LockState.give, LockState.goto, hk] using
      h.held k u (by simpa [LockState.give, LockState.goto, hk] using hu)
  case took =>
    intro u k hu
    have hut : u ≠ t := fun hut => by
      cases wait <;> simp [LockState.give, LockState.goto, hut] at hu
    obtain ⟨hin, hno⟩ := h.took u k (by simpa [LockState.give, LockState.goto, hut] using hu)
    have hk : k ≠ l := fun hk => by simp [hk, hholder] at hno
    simp [LockState.give, LockState.goto, hk, hin, hno]
  case releasing =>
    intro u wait' k hu
    have hut : u ≠ t := fun hut => by
      cases wait <;> simp [LockState.give, LockState.goto, hut] at hu
    have hh := h.releasing u wait' k (by simpa [LockState.give, LockState.goto, hut] using hu)
    have hk : k ≠ l := fun hk => by
      rw [hk, hholder] at hh
      exact hut (Option.some.inj hh).symm
    simpa [LockState.give, LockState.goto, hk] using hh

/-- **A step keeps the permits.** -/
theorem PermitInv.step {σ σ' : LockState} {t : ThreadId} {a : LockAct} (h : PermitInv σ)
    (hs : LockStep t a σ σ') : PermitInv σ' := by
  cases hs with
  | acquire | tryAcquire | wake =>
    exact h.goto (by simp) (by simp)
  | down | resume => exact h.down t _
  | tryDown => exact h.tryDown t _
  | take hpoint => exact h.take hpoint
  | release hpoint hholder =>
    refine h.goto (by simp) (fun wait l hp => ?_)
    cases hp
    exact hholder
  | give lists effective unblocked sema hpoint _ hup =>
    exact h.give lists hpoint (Semaphore.up_cases hup).1

theorem LockReach.inv {σ : LockState} (h : LockReach σ) : PermitInv σ := by
  induction h with
  | init => exact permitInv_init
  | step _ hs ih => exact ih.step hs

/-- **Locks exclude.**  In every state reached, no thread is between the
decrement and the increment of a lock's semaphore and the value is 1, or one is
and the value is 0; the holder, and a thread past the assertion of
`lock_release`, is that thread. -/
theorem lock_exclusive {σ : LockState} (h : LockReach σ) (l : LockId) :
    ((σ.inside l = [] ∧ (σ.semas l).value = 1) ∨
      ∃ t, σ.inside l = [t] ∧ (σ.semas l).value = 0) ∧
    (∀ t, σ.holder l = some t → σ.inside l = [t]) ∧
    ∀ t wait, σ.point t = .releasing wait l → σ.holder l = some t ∧ σ.inside l = [t] := by
  have hinv := h.inv
  refine ⟨hinv.permit l, hinv.held l, fun t wait hpoint => ?_⟩
  have hholder := hinv.releasing t wait l hpoint
  exact ⟨hholder, hinv.held l t hholder⟩

/-- Thread 1 has the permit of lock 0 and has not set `holder`; thread 2 is past
the assertions of `lock_acquire`. -/
def lockTook : LockState :=
  ((LockState.init.goto 1 (.trying 0)).tryDown 1 0).goto 2 (.acquiring 0)

/-- Thread 2 finds no permit. -/
theorem lock_exclusive_took :
    (((lockTook.down 2 0).inside 0 = [] ∧ ((lockTook.down 2 0).semas 0).value = 1) ∨
      ∃ t, (lockTook.down 2 0).inside 0 = [t] ∧ ((lockTook.down 2 0).semas 0).value = 0) ∧
    (∀ t, (lockTook.down 2 0).holder 0 = some t → (lockTook.down 2 0).inside 0 = [t]) ∧
    ∀ t wait, (lockTook.down 2 0).point t = .releasing wait 0 →
      (lockTook.down 2 0).holder 0 = some t ∧ (lockTook.down 2 0).inside 0 = [t] := by
  have hassert := LockReach.init.step (.tryAcquire (t := 1) (l := 0) rfl (by decide))
  have hpermit := hassert.step (.tryDown (t := 1) (l := 0) rfl)
  have hsecond := hpermit.step (.acquire (t := 2) (l := 0) rfl (by decide))
  exact lock_exclusive (hsecond.step (.down (t := 2) (l := 0) rfl)) 0

/-! ### Whose list a lock is on -/

/-- The locks on the lists `d` are those with a holder, on its list. -/
structure OwnedOn (σ : LockState) (d : ThreadId → List LockId) : Prop where
  held : ∀ l t, σ.holder l = some t → (d t).count l = 1 ∧ ∀ u, u ≠ t → l ∉ d u
  free : ∀ l, σ.holder l = none → ∀ t, l ∉ d t
  /-- What `lock_release` is about to remove is on a list. -/
  removes : ∀ t wait l, σ.point t = .releasing wait l → l ∈ d t
  nothing : ∀ t, (∀ l, σ.holder l ≠ some t) → d t = []

/-- `donated_locks` of every thread are the locks it holds. -/
def LockState.ListsOwned (σ : LockState) : Prop := ∃ d, σ.lists = some d ∧ OwnedOn σ d

/-- The same by the number of times a lock is on a list. -/
def LockState.Counts (σ : LockState) (d : ThreadId → List LockId) : Prop :=
  ∀ t l, (d t).count l = if σ.holder l = some t then 1 else 0

theorem LockState.Counts.mem {σ : LockState} {d : ThreadId → List LockId} (h : σ.Counts d)
    {t : ThreadId} {l : LockId} : l ∈ d t ↔ σ.holder l = some t := by
  rw [← List.count_pos_iff, h t l]
  split_ifs with hh <;> simp [hh]

theorem LockState.Counts.owned {σ : LockState} {d : ThreadId → List LockId} (h : σ.Counts d)
    (hinv : PermitInv σ) : OwnedOn σ d where
  held l t hh := by
    refine ⟨by rw [h t l, if_pos hh], fun u hut hmem => ?_⟩
    rw [h.mem, hh] at hmem
    exact hut (Option.some.inj hmem).symm
  free l hnone t hmem := by
    rw [h.mem, hnone] at hmem
    cases hmem
  removes t wait l hpoint := h.mem.2 (hinv.releasing t wait l hpoint)
  nothing t hnone := List.eq_nil_iff_forall_not_mem.2 fun l hl => hnone l (h.mem.1 hl)

/-- `list_push_back` of a lock that is free makes the thread its holder. -/
theorem LockState.Counts.push {σ : LockState} {d : ThreadId → List LockId} (h : σ.Counts d)
    {l : LockId} (hfree : σ.holder l = none) (t : ThreadId) {σ' : LockState}
    (hholder : σ'.holder = Function.update σ.holder l (some t)) :
    σ'.Counts (Function.update d t (d t ++ [l])) := by
  intro u k
  have hcount := h u k
  by_cases hut : u = t <;> by_cases hk : k = l
  · subst hut hk
    simpa [hholder, hfree] using hcount
  · subst hut
    simpa [hholder, hk, List.count_singleton, Ne.symm hk] using hcount
  · subst hk
    simpa [hholder, hut, Ne.symm hut, hfree] using hcount
  · simpa [hholder, hut, hk] using hcount

/-- `list_remove` of a lock that is held leaves it without a holder. -/
theorem LockState.Counts.remove {σ : LockState} {d : ThreadId → List LockId} (h : σ.Counts d)
    {l : LockId} {t : ThreadId} (hheld : σ.holder l = some t) {σ' : LockState}
    (hholder : σ'.holder = Function.update σ.holder l none) :
    σ'.Counts fun u => (d u).erase l := by
  intro u k
  have hcount := h u k
  by_cases hk : k = l
  · subst hk
    rw [List.count_erase_self, hcount, hheld, hholder]
    simp only [Function.update_self, Option.some.injEq, reduceCtorEq, if_false]
    split_ifs <;> rfl
  · rw [List.count_erase_of_ne hk, hcount, hholder]
    simp [hk]

/-- A `list_remove` of an element that is on a list leaves lists. -/
theorem ListRemove.of_mem {l : LockId} {d : ThreadId → List LockId} {t : ThreadId}
    {lists : Option (ThreadId → List LockId)} (h : ListRemove l (some d) lists) (hl : l ∈ d t) :
    lists = some fun u => (d u).erase l := by
  cases h with
  | listed => rfl
  | unlisted hno => exact absurd hl (hno t)

/-- **Every step keeps the lists**, except for the assignment to `holder` in
`lock_try_acquire`. -/
theorem LockState.Counts.step {σ σ' : LockState} {d : ThreadId → List LockId} {t : ThreadId}
    {a : LockAct} (h : σ.Counts d) (hlists : σ.lists = some d) (hinv : PermitInv σ)
    (hs : LockStep t a σ σ') (ha : ∀ l, a ≠ .take l) : ∃ d', σ'.lists = some d' ∧ σ'.Counts d' := by
  have hdown : ∀ l, ∃ d', (σ.down t l).lists = some d' ∧ (σ.down t l).Counts d' := by
    intro l
    rcases σ.down_cases t l with ⟨-, hdown⟩ | ⟨hvalue, hdown⟩ <;> rw [hdown]
    · exact ⟨d, hlists, h⟩
    · refine ⟨Function.update d t (d t ++ [l]), ?_, h.push (hinv.free hvalue).2.2 t rfl⟩
      simp [LockState.push, LockState.goto, hlists]
  cases hs with
  | acquire | tryAcquire | release | wake => exact ⟨d, hlists, h⟩
  | down | resume => exact hdown _
  | @tryDown _ l =>
    rcases σ.tryDown_cases t l with ⟨-, htry⟩ | ⟨-, htry⟩ <;> rw [htry] <;> exact ⟨d, hlists, h⟩
  | @take _ l => exact absurd rfl (ha l)
  | @give _ wait l lists effective unblocked sema hpoint hremove hup =>
    have hheld := hinv.releasing t wait l hpoint
    rw [hlists] at hremove
    exact ⟨_, hremove.of_mem (h.mem.2 hheld), h.remove hheld rfl⟩

/-- The assignment to `holder` in `lock_try_acquire` gives the thread a lock that
is on no list. -/
theorem LockState.ListsOwned.not_take {σ σ' : LockState} {t : ThreadId} {l : LockId}
    (h : σ.ListsOwned) (hinv : PermitInv σ) (hs : LockStep t (.take l) σ σ') : ¬σ'.ListsOwned := by
  obtain ⟨d, hlists, howned⟩ := h
  cases hs with
  | take hpoint =>
    rintro ⟨d', hlists', howned'⟩
    have hd : d = d' := Option.some.inj (hlists.symm.trans hlists')
    have hno := howned.free l (hinv.took t l hpoint).2 t
    have hone := (howned'.held l t (by simp [LockState.take, LockState.goto])).1
    rw [← hd, List.count_eq_zero.2 hno] at hone
    cases hone

/-- The `n` first steps of a run: step `i` is `acts i`, from `run i`. -/
structure LockTrace (n : ℕ) (run : ℕ → LockState) (acts : ℕ → ThreadId × LockAct) : Prop where
  init : run 0 = .init
  step : ∀ i < n, LockStep (acts i).1 (acts i).2 (run i) (run (i + 1))

theorem LockTrace.reach {n : ℕ} {run : ℕ → LockState} {acts : ℕ → ThreadId × LockAct}
    (h : LockTrace n run acts) : ∀ i ≤ n, LockReach (run i)
  | 0, _ => h.init ▸ .init
  | i + 1, hi => (h.reach i (Nat.le_of_succ_le hi)).step (h.step i hi)

/-- While no `lock_try_acquire` sets `holder`, the lists are counted. -/
theorem LockTrace.counts {n : ℕ} {run : ℕ → LockState} {acts : ℕ → ThreadId × LockAct}
    (h : LockTrace n run acts) (htake : ∀ i < n, ∀ l, (acts i).2 ≠ .take l) :
    ∀ i ≤ n, ∃ d, (run i).lists = some d ∧ (run i).Counts d := by
  intro i
  induction i with
  | zero =>
    intro _
    rw [h.init]
    exact ⟨fun _ => [], rfl, fun t l => rfl⟩
  | succ i ih =>
    intro hi
    obtain ⟨d, hlists, hcounts⟩ := ih (Nat.le_of_succ_le hi)
    exact hcounts.step hlists (h.reach i (Nat.le_of_succ_le hi)).inv (h.step i hi) (htake i hi)

/-- **The locks on `donated_locks` are the locks held**, in every state of a run,
if and only if no `lock_try_acquire` in the run gets to set `holder`:
`lock_acquire` puts the lock on the list, `lock_try_acquire` does not. -/
theorem lock_lists {n : ℕ} {run : ℕ → LockState} {acts : ℕ → ThreadId × LockAct}
    (h : LockTrace n run acts) :
    (∀ i ≤ n, (run i).ListsOwned) ↔ ∀ i < n, ∀ l, (acts i).2 ≠ .take l := by
  constructor
  · intro howned i hi l htake
    have hs := h.step i hi
    rw [htake] at hs
    exact (howned i hi.le).not_take (h.reach i hi.le).inv hs (howned (i + 1) hi)
  · intro htake i hi
    obtain ⟨d, hlists, hcounts⟩ := h.counts htake i hi
    exact ⟨d, hlists, hcounts.owned (h.reach i hi).inv⟩

/-- Thread 1 has taken lock 0. -/
def lockTaken : LockState := (LockState.init.goto 1 (.acquiring 0)).down 1 0

/-- Thread 1 takes lock 0 and gives it back. -/
def acquireRelease : ℕ → LockState
  | 0 => .init
  | 1 => LockState.init.goto 1 (.acquiring 0)
  | 2 => lockTaken
  | 3 => lockTaken.goto 1 (.releasing false 0)
  | _ => (lockTaken.goto 1 (.releasing false 0)).give 1 0 false
    (some fun u => (Function.update (fun _ => []) 1 [0] u).erase 0) ⟨1, []⟩

/-- Its steps. -/
def acquireReleaseActs : ℕ → ThreadId × LockAct
  | 0 => (1, .acquire 0)
  | 1 => (1, .down 0)
  | 2 => (1, .release false 0)
  | _ => (1, .give 0)

theorem acquireRelease_trace : LockTrace 4 acquireRelease acquireReleaseActs where
  init := rfl
  step i hi := by
    match i, hi with
    | 0, _ => exact .acquire rfl (by decide)
    | 1, _ => exact .down rfl
    | 2, _ => exact .release rfl (by decide)
    | 3, _ => exact .give _ (fun _ => 31) none ⟨1, []⟩ rfl (.listed (t := 1) (by decide)) rfl

/-- The lists are right through the run, which has no `take`. -/
theorem lock_lists_acquireRelease :
    (∀ i ≤ 4, (acquireRelease i).ListsOwned) ↔
      ∀ i < 4, ∀ l, (acquireReleaseActs i).2 ≠ .take l :=
  lock_lists acquireRelease_trace

/-- One `lock_try_acquire` that succeeds leaves a lock held and on no list. -/
theorem not_lists_of_tryAcquire : ¬∀ σ, LockReach σ → σ.ListsOwned := by
  intro h
  have hassert := LockReach.init.step (.tryAcquire (t := 1) (l := 0) rfl (by decide))
  have hpermit := hassert.step (.tryDown (t := 1) (l := 0) rfl)
  have htook := hpermit.step (.take (t := 1) (l := 0) rfl)
  obtain ⟨d, hlists, howned⟩ := h _ htook
  have hone := (howned.held 0 1 rfl).1
  rw [← Option.some.inj (show some (fun _ => ([] : List LockId)) = some d from hlists)] at hone
  cases hone

end Threads
end CS162

/-
# The readers-writers lock

`threads/synch.c` of `projects1-3`, lines 264-403, and of `proj-pregame`, lines
222-358: `rw_lock_acquire`, `rw_lock_release`, `cond_wait`, `cond_signal` and
`cond_broadcast`.  The two kernels differ in `cond_signal` alone.

What a thread runs between two operations on the guard lock or on a semaphore is
one step, and any thread takes the next one.  The guard is taken when it is free
(`Threads.LockRuns`).  The semaphore in a waiter's `struct semaphore_elem` is
indexed by the waiting thread.  The counters are far below the range of an `int`:
each thread of the system is counted once.

`rw_lock_acquire` and `rw_lock_release` come in pairs with one mode, for any
number of threads.  The counters count, a writer is alone (`rwLock_safe`), and
no waiter is left without one that will wake it (`rwLock_wakes`).
-/

import CS162.Basis.Tally
import CS162.Lib.KernelList

namespace CS162
namespace Threads

open CS162.Basis CS162.Lib

/-- `RW_READER` and `RW_WRITER`. -/
inductive RwMode where
  | reader
  | writer
deriving DecidableEq

/-- Where a thread is in the functions of a readers-writers lock. -/
inductive RwPoint where
  | outside
  /-- In `rw_lock_acquire`, about to take the guard. -/
  | entering (m : RwMode)
  /-- At the test of the `while`, with the guard. -/
  | testing (m : RwMode)
  /-- In `cond_wait`, on the waiters, about to give the guard back. -/
  | parking (m : RwMode)
  /-- In `cond_wait`, in the `sema_down` of its own semaphore. -/
  | waiting (m : RwMode)
  /-- In `cond_wait`, past that `sema_down`, about to take the guard. -/
  | woken (m : RwMode)
  /-- Back from `cond_wait`, with the guard. -/
  | resumed (m : RwMode)
  /-- Counted in `AR` or `AW`, about to give the guard back. -/
  | admitted (m : RwMode)
  /-- Between `rw_lock_acquire` and `rw_lock_release`. -/
  | holding (m : RwMode)
  /-- In `rw_lock_release`, about to take the guard. -/
  | exiting (m : RwMode)
  /-- In `rw_lock_release`, with the guard. -/
  | dropping (m : RwMode)
  /-- At `cond_signal (&rw_lock->write, ...)`. -/
  | signalling
  /-- At the test of `cond_broadcast (&rw_lock->read, ...)`. -/
  | broadcasting
  /-- At the end of `rw_lock_release`, about to give the guard back. -/
  | leaving
deriving DecidableEq

/-- At this point a thread holds the guard. -/
def RwPoint.guarded : RwPoint → Bool
  | .testing _ | .parking _ | .resumed _ | .admitted _ | .dropping _ | .signalling
  | .broadcasting | .leaving => true
  | .outside | .entering _ | .waiting _ | .woken _ | .holding _ | .exiting _ => false

/-- At this point a thread holds the lock in mode `m`. -/
def RwPoint.holds (m : RwMode) : RwPoint → Bool
  | .admitted m' | .holding m' | .exiting m' | .dropping m' => m' = m
  | _ => false

/-- At this point a thread is inside a wait in mode `m`. -/
def RwPoint.waits (m : RwMode) : RwPoint → Bool
  | .parking m' | .waiting m' | .woken m' | .resumed m' => m' = m
  | _ => false

/-- At this point a thread is between `list_push_back` and the end of `sema_down`
in a `cond_wait` of mode `m`. -/
def RwPoint.stopped (m : RwMode) : RwPoint → Bool
  | .parking m' | .waiting m' => m' = m
  | _ => false

/-- At this point a thread is on its way to the test of the `while`, or about to
wake others. -/
def RwPoint.wakes : RwPoint → Bool
  | .testing _ | .waiting _ | .woken _ | .resumed _ | .signalling | .broadcasting => true
  | _ => false

/-- `struct rw_lock`, and the threads that use it. -/
structure RwState (T : Type) where
  /-- `holder` of `lock`. -/
  guard : Option T
  /-- `AR` and `AW`. -/
  active : RwMode → ℤ
  /-- `WR` and `WW`. -/
  waits : RwMode → ℤ
  /-- The `waiters` of `read` and of `write`. -/
  waiters : RwMode → List T
  /-- The value of the semaphore of each thread in `cond_wait`. -/
  sema : T → ℕ
  point : T → RwPoint

variable {T : Type}

@[simp] abbrev RwState.AR (σ : RwState T) : ℤ := σ.active .reader
@[simp] abbrev RwState.AW (σ : RwState T) : ℤ := σ.active .writer
@[simp] abbrev RwState.WR (σ : RwState T) : ℤ := σ.waits .reader
@[simp] abbrev RwState.WW (σ : RwState T) : ℤ := σ.waits .writer

/-- `rw_lock_init`, before any thread uses the lock. -/
def RwState.init : RwState T where
  guard := none
  active _ := 0
  waits _ := 0
  waiters _ := []
  sema _ := 0
  point _ := .outside

/-- The test of the `while` in `rw_lock_acquire`. -/
def RwState.blocked (σ : RwState T) : RwMode → Bool
  | .reader => decide (σ.AW + σ.WW > 0)
  | .writer => decide (σ.AR + σ.AW > 0)

/-- What `rw_lock_release` goes on to after it has counted the thread out. -/
def RwState.afterDrop (σ : RwState T) : RwMode → RwPoint
  | .reader => if σ.AR = 0 ∧ σ.WW > 0 then .signalling else .leaving
  | .writer => if σ.WW > 0 then .signalling else if σ.WR > 0 then .broadcasting else .leaving

/-- The kernels. -/
inductive Kernel where
  | pregame
  | projects
deriving DecidableEq

/-- The waiter that `cond_signal` takes off the waiters, if any, and those it
leaves; `none` if the assertion in `list_pop_front` fails.  `projects1-3` sorts
the waiters by a field that `cond_wait` does not set, so `less` is arbitrary. -/
def condSignal (less : T → T → Bool) : Kernel → List T → Option (Option T × List T)
  | .pregame, [] => some (none, [])
  | .pregame, w :: rest => some (some w, rest)
  | .projects, [] => none
  | .projects, w :: ws =>
    match listSort less (w :: ws) with
    | some (u :: rest) => some (some u, rest)
    | _ => none

variable [DecidableEq T]

/-- The thread moves to another point. -/
def RwState.goto (σ : RwState T) (t : T) (p : RwPoint) : RwState T :=
  { σ with point := Function.update σ.point t p }

/-- `lock_acquire` and `lock_release` of the guard. -/
def RwState.lock (σ : RwState T) (t : T) : RwState T := { σ with guard := some t }
def RwState.unlock (σ : RwState T) : RwState T := { σ with guard := none }

/-- The counter goes up and `cond_wait` puts the thread on the waiters. -/
def RwState.park (σ : RwState T) (t : T) (m : RwMode) : RwState T :=
  { σ with
    waits := Function.update σ.waits m (σ.waits m + 1)
    sema := Function.update σ.sema t 0
    waiters := Function.update σ.waiters m (σ.waiters m ++ [t]) }.goto t (.parking m)

/-- The `while` is left. -/
def RwState.letIn (σ : RwState T) (t : T) (m : RwMode) : RwState T :=
  { σ with active := Function.update σ.active m (σ.active m + 1) }.goto t (.admitted m)

/-- `cond_wait` has returned. -/
def RwState.resume (σ : RwState T) (t : T) (m : RwMode) : RwState T :=
  { σ with waits := Function.update σ.waits m (σ.waits m - 1) }.goto t (.testing m)

/-- `rw_lock_release` counts the thread out. -/
def RwState.uncount (σ : RwState T) (m : RwMode) : RwState T :=
  { σ with active := Function.update σ.active m (σ.active m - 1) }

/-- `sema_down` of the thread's own semaphore, when it has a permit. -/
def RwState.downed (σ : RwState T) (t : T) : RwState T :=
  { σ with sema := Function.update σ.sema t (σ.sema t - 1) }

/-- `cond_signal` takes `w` off the waiters and calls `sema_up`. -/
def RwState.signal (σ : RwState T) (m : RwMode) (w : Option T) (rest : List T) : RwState T :=
  { σ with
    waiters := Function.update σ.waiters m rest
    sema := match w with
      | some u => Function.update σ.sema u (σ.sema u + 1)
      | none => σ.sema }

/-- Thread `t` takes its next step. -/
inductive RwStep (k : Kernel) (t : T) : RwState T → RwState T → Prop where
  | call {σ : RwState T} (m : RwMode) :
      σ.point t = .outside → RwStep k t σ (σ.goto t (.entering m))
  | enter {σ : RwState T} {m : RwMode} :
      σ.point t = .entering m → σ.guard = none → RwStep k t σ ((σ.lock t).goto t (.testing m))
  | park {σ : RwState T} {m : RwMode} :
      σ.point t = .testing m → σ.blocked m = true → RwStep k t σ (σ.park t m)
  | letIn {σ : RwState T} {m : RwMode} :
      σ.point t = .testing m → σ.blocked m = false → RwStep k t σ (σ.letIn t m)
  | wait {σ : RwState T} {m : RwMode} :
      σ.point t = .parking m → RwStep k t σ (σ.unlock.goto t (.waiting m))
  | down {σ : RwState T} {m : RwMode} :
      σ.point t = .waiting m → 0 < σ.sema t → RwStep k t σ ((σ.downed t).goto t (.woken m))
  | relock {σ : RwState T} {m : RwMode} :
      σ.point t = .woken m → σ.guard = none → RwStep k t σ ((σ.lock t).goto t (.resumed m))
  | resume {σ : RwState T} {m : RwMode} :
      σ.point t = .resumed m → RwStep k t σ (σ.resume t m)
  | acquired {σ : RwState T} {m : RwMode} :
      σ.point t = .admitted m → RwStep k t σ (σ.unlock.goto t (.holding m))
  | release {σ : RwState T} {m : RwMode} :
      σ.point t = .holding m → RwStep k t σ (σ.goto t (.exiting m))
  | exit {σ : RwState T} {m : RwMode} :
      σ.point t = .exiting m → σ.guard = none → RwStep k t σ ((σ.lock t).goto t (.dropping m))
  | drop {σ : RwState T} {m : RwMode} :
      σ.point t = .dropping m →
      RwStep k t σ ((σ.uncount m).goto t ((σ.uncount m).afterDrop m))
  | signal {σ : RwState T} (less : T → T → Bool) (w : Option T) (rest : List T) :
      σ.point t = .signalling → condSignal less k (σ.waiters .writer) = some (w, rest) →
      RwStep k t σ ((σ.signal .writer w rest).goto t .leaving)
  | broadcast {σ : RwState T} (less : T → T → Bool) (w : Option T) (rest : List T) :
      σ.point t = .broadcasting → σ.waiters .reader ≠ [] →
      condSignal less k (σ.waiters .reader) = some (w, rest) →
      RwStep k t σ (σ.signal .reader w rest)
  | broadcasted {σ : RwState T} :
      σ.point t = .broadcasting → σ.waiters .reader = [] → RwStep k t σ (σ.goto t .leaving)
  | leave {σ : RwState T} :
      σ.point t = .leaving → RwStep k t σ (σ.unlock.goto t .outside)

/-- The states reached, by any threads in any order. -/
inductive RwReach (k : Kernel) : RwState T → Prop where
  | init : RwReach k .init
  | step {σ σ' : RwState T} {t : T} : RwReach k σ → RwStep k t σ σ' → RwReach k σ'

/-! ### What every step keeps -/

/-- Thread `u` has been signalled in a wait of mode `m` and has not come back to
the test of the `while`. -/
def RwState.coming (σ : RwState T) (m : RwMode) (u : T) : Prop :=
  (σ.point u = .waiting m ∧ 0 < σ.sema u) ∨ σ.point u = .woken m ∨ σ.point u = .resumed m

omit [DecidableEq T] in
/-- A signalled thread is inside the wait. -/
theorem RwState.coming.waits {σ : RwState T} {m : RwMode} {u : T} (h : σ.coming m u) :
    (σ.point u).waits m = true := by
  rcases h with ⟨h, -⟩ | h | h <;> simp [h, RwPoint.waits]

/-- The holder of the guard is the thread at a point that holds it. -/
def Guarded (σ : RwState T) : Prop := ∀ u, (σ.point u).guarded = true ↔ σ.guard = some u

theorem Guarded.goto {σ : RwState T} (h : Guarded σ) {t : T} {p : RwPoint}
    (hp : p.guarded = (σ.point t).guarded) : Guarded (σ.goto t p) := by
  intro u
  by_cases hu : u = t
  · subst hu
    simpa [RwState.goto, hp] using h u
  · simpa [RwState.goto, hu] using h u

theorem Guarded.lock {σ : RwState T} (h : Guarded σ) (hfree : σ.guard = none) {t : T} {p : RwPoint}
    (hp : p.guarded = true) : Guarded ((σ.lock t).goto t p) := by
  intro u
  by_cases hu : u = t
  · subst hu
    simp [RwState.goto, RwState.lock, hp]
  · have hno := h u
    rw [hfree] at hno
    simp only [RwState.goto, RwState.lock, Function.update_of_ne hu, hno, Option.some.injEq,
      reduceCtorEq, false_iff]
    exact Ne.symm hu

theorem Guarded.unlock {σ : RwState T} (h : Guarded σ) {t : T} {p : RwPoint}
    (ht : (σ.point t).guarded = true) (hp : p.guarded = false) : Guarded (σ.unlock.goto t p) := by
  intro u
  by_cases hu : u = t
  · subst hu
    simp [RwState.goto, RwState.unlock, hp]
  · have hno : ¬(σ.point u).guarded = true := fun hheld =>
      hu (Option.some.inj (((h u).1 hheld).symm.trans ((h t).1 ht)))
    simp [RwState.goto, RwState.unlock, hu, hno]

omit [DecidableEq T] in
/-- Two threads with the guard are one. -/
theorem Guarded.eq {σ : RwState T} (h : Guarded σ) {t u : T} (ht : (σ.point t).guarded = true)
    (hu : (σ.point u).guarded = true) : u = t :=
  Option.some.inj (((h u).1 hu).symm.trans ((h t).1 ht))

/-- Those on the waiters have not been signalled. -/
structure Queued (σ : RwState T) : Prop where
  mem : ∀ m u, u ∈ σ.waiters m ↔ (σ.point u).stopped m = true ∧ σ.sema u = 0
  nodup : ∀ m, (σ.waiters m).Nodup

/-- A thread that is not in a wait moves to a point outside `cond_wait`. -/
theorem Queued.goto {σ σ' : RwState T} (h : Queued σ) {t : T} {p : RwPoint}
    (hwaiters : σ'.waiters = σ.waiters) (hsema : σ'.sema = σ.sema)
    (hpoint : σ'.point = Function.update σ.point t p)
    (hstopped : ∀ m, p.stopped m = (σ.point t).stopped m) : Queued σ' := by
  refine ⟨fun m u => ?_, fun m => by rw [hwaiters]; exact h.nodup m⟩
  rw [hwaiters, hsema, hpoint, h.mem]
  by_cases hu : u = t
  · subst hu
    rw [Function.update_self, hstopped]
  · rw [Function.update_of_ne hu]

omit [DecidableEq T] in
/-- `cond_signal` takes a waiter off the waiters if there is one. -/
theorem condSignal_cases {less : T → T → Bool} {k : Kernel} {ws : List T} {w : Option T}
    {rest : List T} (h : condSignal less k ws = some (w, rest)) :
    (w.toList ++ rest).Perm ws ∧ (w = none → ws = []) := by
  unfold condSignal at h
  split at h
  case h_1 | h_2 =>
    cases h
    exact ⟨.refl _, by simp⟩
  case h_3 => cases h
  case h_4 =>
    split at h
    case h_1 hsort =>
      cases h
      exact ⟨listSort_perm hsort, by simp⟩
    case h_2 => cases h

/-- The waiter that is signalled is no longer on the waiters. -/
theorem Queued.signal {σ : RwState T} (h : Queued σ) {less : T → T → Bool} {k : Kernel}
    {m : RwMode} {w : Option T} {rest : List T}
    (hsignal : condSignal less k (σ.waiters m) = some (w, rest)) : Queued (σ.signal m w rest) := by
  obtain ⟨hperm, -⟩ := condSignal_cases hsignal
  have hnodup := hperm.symm.nodup (h.nodup m)
  have hrest : rest.Nodup := (List.nodup_append.1 hnodup).2.1
  refine ⟨fun m' u => ?_, fun m' => ?_⟩
  · have hmem := h.mem m' u
    cases w with
    | none =>
      by_cases hm : m' = m
      · subst hm
        simpa [RwState.signal, ← hperm.mem_iff] using hmem
      · simpa [RwState.signal, hm] using hmem
    | some v =>
      have hv : (σ.point v).stopped m = true := ((h.mem m v).1 (hperm.mem_iff.1 (by simp))).1
      have hvrest : v ∉ rest := (List.nodup_cons.1 hnodup).1
      by_cases hu : u = v
      · subst hu
        by_cases hm : m' = m
        · subst hm
          simp [RwState.signal, hvrest]
        · have hno : u ∉ σ.waiters m' := fun hin => hm (by
            have hu := (hmem.1 hin).1
            cases hp : σ.point u <;> simp [hp, RwPoint.stopped] at hu hv
            all_goals exact hu.symm.trans hv)
          simp [RwState.signal, hm, hno]
      · by_cases hm : m' = m
        · subst hm
          have hiff : u ∈ rest ↔ u ∈ σ.waiters m' := by
            rw [← hperm.mem_iff]
            simp [hu]
          simpa [RwState.signal, hu, hiff] using hmem
        · simpa [RwState.signal, hu, hm] using hmem
  · by_cases hm : m' = m
    · subst hm
      simpa [RwState.signal] using hrest
    · simpa [RwState.signal, hm] using h.nodup m'

/-- A `sema_up` takes no signal back. -/
theorem RwState.coming.signal {σ : RwState T} {m m' : RwMode} {u : T} (h : σ.coming m u)
    (w : Option T) (rest : List T) : (σ.signal m' w rest).coming m u := by
  rcases h with ⟨hpoint, hsema⟩ | h | h
  · refine .inl ⟨hpoint, ?_⟩
    cases w with
    | none => exact hsema
    | some v =>
      by_cases hu : u = v
      · subst hu
        simp [RwState.signal]
      · simpa [RwState.signal, hu] using hsema
  · exact .inr (.inl h)
  · exact .inr (.inr h)

section Tallies

variable [Fintype T]

/-- The counters are the numbers of threads that hold the lock, and that wait. -/
structure Counted (σ : RwState T) : Prop where
  active : ∀ m, σ.active m = tally (RwPoint.holds m) σ.point
  waits : ∀ m, σ.waits m = tally (RwPoint.waits m) σ.point

/-- A thread moves, and the counters follow. -/
theorem Counted.move {σ σ' : RwState T} (h : Counted σ) {t : T} {p : RwPoint}
    (hpoint : σ'.point = Function.update σ.point t p)
    (hactive : ∀ m, σ'.active m =
      σ.active m + (if p.holds m then 1 else 0) - (if (σ.point t).holds m then 1 else 0))
    (hwaits : ∀ m, σ'.waits m =
      σ.waits m + (if p.waits m then 1 else 0) - (if (σ.point t).waits m then 1 else 0)) :
    Counted σ' where
  active m := by rw [hpoint, tally_update, hactive, h.active]
  waits m := by rw [hpoint, tally_update, hwaits, h.waits]

omit [DecidableEq T] in
theorem Counted.nonneg {σ : RwState T} (h : Counted σ) (m : RwMode) :
    0 ≤ σ.active m ∧ 0 ≤ σ.waits m := by
  rw [h.active, h.waits]
  exact ⟨tally_nonneg _ _, tally_nonneg _ _⟩

/-- What every step keeps. -/
structure RwInv (σ : RwState T) : Prop where
  guarded : Guarded σ
  counted : Counted σ
  queued : Queued σ
  exclusive : σ.AW = 0 ∨ σ.AW = 1 ∧ σ.AR = 0
  /-- A queued reader has a writer to wake it. -/
  readers : σ.waiters .reader ≠ [] →
    0 < σ.AW + σ.WW ∨ ∃ u, σ.point u = .testing .writer ∨ σ.point u = .broadcasting
  /-- When nobody holds the lock, a queued writer has another one on its way. -/
  writers : σ.waiters .writer ≠ [] → σ.AR = 0 → σ.AW = 0 →
    ∃ u, σ.coming .writer u ∨ σ.point u = .testing .writer ∨ σ.point u = .signalling

omit [DecidableEq T] in
theorem rwInv_init : RwInv (.init : RwState T) where
  guarded u := by simp [RwState.init, RwPoint.guarded]
  counted := ⟨fun m => by simp [RwState.init, tally, RwPoint.holds],
    fun m => by simp [RwState.init, tally, RwPoint.waits]⟩
  queued := ⟨fun m u => by simp [RwState.init, RwPoint.stopped], fun m => List.nodup_nil⟩
  exclusive := .inl rfl
  readers h := absurd rfl h
  writers h := absurd rfl h

/-- A move between points of one kind, which leaves the counters and the waiters
alone. -/
theorem RwInv.quiet {σ σ' : RwState T} (h : RwInv σ) {t : T} {p : RwPoint}
    (hguarded : Guarded σ') (hpoint : σ'.point = Function.update σ.point t p)
    (hactive : σ'.active = σ.active) (hwaits : σ'.waits = σ.waits)
    (hwaiters : σ'.waiters = σ.waiters) (hsema : ∀ u, u ≠ t → σ'.sema u = σ.sema u)
    (hkind : ∀ m, p.holds m = (σ.point t).holds m ∧ p.waits m = (σ.point t).waits m)
    (hstopped : ∀ m, p.stopped m = true ∧ σ'.sema t = 0 ↔
      (σ.point t).stopped m = true ∧ σ.sema t = 0)
    (hcoming : σ.coming .writer t → σ'.coming .writer t)
    (hpass : σ.point t ≠ .testing .writer ∧ σ.point t ≠ .broadcasting ∧ σ.point t ≠ .signalling) :
    RwInv σ' := by
  have hother : ∀ u, u ≠ t → σ'.point u = σ.point u := fun u hu => by
    rw [hpoint, Function.update_of_ne hu]
  constructor
  case guarded => exact hguarded
  case counted =>
    refine h.counted.move hpoint (fun m => ?_) (fun m => ?_)
    · rw [hactive, (hkind m).1]
      omega
    · rw [hwaits, (hkind m).2]
      omega
  case queued =>
    refine ⟨fun m u => ?_, fun m => by rw [hwaiters]; exact h.queued.nodup m⟩
    rw [hwaiters, h.queued.mem]
    by_cases hu : u = t
    · subst hu
      rw [hpoint, Function.update_self]
      exact (hstopped m).symm
    · rw [hother u hu, hsema u hu]
  case exclusive =>
    show σ'.active .writer = 0 ∨ σ'.active .writer = 1 ∧ σ'.active .reader = 0
    rw [hactive]
    exact h.exclusive
  case readers =>
    intro hne
    show 0 < σ'.active .writer + σ'.waits .writer ∨ _
    rw [hwaiters] at hne
    rw [hactive, hwaits]
    refine (h.readers hne).imp id fun ⟨u, hu⟩ => ⟨u, ?_⟩
    have hut : u ≠ t := fun hut => by
      subst hut
      exact hu.elim hpass.1 hpass.2.1
    rw [hother u hut]
    exact hu
  case writers =>
    intro hne hAR hAW
    rw [hwaiters] at hne
    obtain ⟨u, hu⟩ := h.writers hne (by simpa [hactive] using hAR) (by simpa [hactive] using hAW)
    refine ⟨u, ?_⟩
    by_cases hut : u = t
    · subst hut
      rcases hu with hu | hu | hu
      · exact .inl (hcoming hu)
      · exact absurd hu hpass.1
      · exact absurd hu hpass.2.2
    · simpa [RwState.coming, hother u hut, hsema u hut] using hu

/-- A thread queues: what it waits for is there. -/
theorem RwInv.park {σ : RwState T} (h : RwInv σ) {t : T} {m : RwMode}
    (hpoint : σ.point t = .testing m) (hblocked : σ.blocked m = true) : RwInv (σ.park t m) := by
  have hout : ∀ m', t ∉ σ.waiters m' := fun m' hmem => by
    simpa [hpoint, RwPoint.stopped] using ((h.queued.mem m' t).1 hmem).1
  have hnonneg := h.counted.nonneg
  constructor
  case guarded => exact h.guarded.goto (by rw [hpoint]; rfl)
  case counted =>
    refine h.counted.move (p := .parking m) rfl (fun m' => ?_) (fun m' => ?_)
    · simp [RwState.park, RwState.goto, hpoint, RwPoint.holds]
    · by_cases hm : m' = m
      · subst hm
        simp [RwState.park, RwState.goto, hpoint, RwPoint.waits]
      · simp [RwState.park, RwState.goto, hpoint, RwPoint.waits, hm, Ne.symm hm]
  case queued =>
    constructor
    · intro m' u
      by_cases hu : u = t
      · subst hu
        by_cases hm : m' = m
        · subst hm
          simp [RwState.park, RwState.goto, RwPoint.stopped]
        · simp [RwState.park, RwState.goto, RwPoint.stopped, hm, Ne.symm hm, hout m']
      · by_cases hm : m' = m
        · subst hm
          simpa [RwState.park, RwState.goto, hu] using h.queued.mem m' u
        · simpa [RwState.park, RwState.goto, hu, hm] using h.queued.mem m' u
    · intro m'
      by_cases hm : m' = m
      · subst hm
        have hnodup := h.queued.nodup m'
        simpa [RwState.park, RwState.goto] using
          List.nodup_append.2 ⟨hnodup, List.nodup_singleton t, fun u hu w hw huw =>
            hout m' (by rw [← List.mem_singleton.1 hw, ← huw]; exact hu)⟩
      · simpa [RwState.park, RwState.goto, hm] using h.queued.nodup m'
  case exclusive => exact h.exclusive
  case readers =>
    intro _
    refine .inl ?_
    cases m with
    | reader => simpa [RwState.blocked, RwState.park, RwState.goto] using hblocked
    | writer =>
      have hAW := (hnonneg .writer).1
      have hWW := (hnonneg .writer).2
      show 0 < σ.active .writer + Function.update σ.waits .writer (σ.waits .writer + 1) .writer
      rw [Function.update_self]
      omega
  case writers =>
    intro hne hAR hAW
    change σ.active .reader = 0 at hAR
    change σ.active .writer = 0 at hAW
    cases m with
    | writer => simp [RwState.blocked, hAR, hAW] at hblocked
    | reader =>
      obtain ⟨u, hu⟩ := h.writers (by simpa [RwState.park, RwState.goto] using hne) hAR hAW
      have hut : u ≠ t := fun hut => by
        subst hut
        simp [RwState.coming, hpoint] at hu
      refine ⟨u, ?_⟩
      simpa [RwState.coming, RwState.park, RwState.goto, hut] using hu

/-- A thread is let in: a writer when nobody holds the lock, a reader when no
writer holds it or waits. -/
theorem RwInv.letIn {σ : RwState T} (h : RwInv σ) {t : T} {m : RwMode}
    (hpoint : σ.point t = .testing m) (hblocked : σ.blocked m = false) : RwInv (σ.letIn t m) := by
  have hnonneg := h.counted.nonneg
  have hAR := (hnonneg .reader).1
  have hAW := (hnonneg .writer).1
  have hWW := (hnonneg .writer).2
  constructor
  case guarded => exact h.guarded.goto (by rw [hpoint]; rfl)
  case counted =>
    refine h.counted.move (p := .admitted m) rfl (fun m' => ?_) (fun m' => ?_)
    · by_cases hm : m' = m
      · subst hm
        simp [RwState.letIn, RwState.goto, hpoint, RwPoint.holds]
      · simp [RwState.letIn, RwState.goto, hpoint, RwPoint.holds, hm, Ne.symm hm]
    · simp [RwState.letIn, RwState.goto, hpoint, RwPoint.waits]
  case queued => exact h.queued.goto rfl rfl rfl fun m' => by rw [hpoint]; rfl
  case exclusive =>
    cases m with
    | reader =>
      have hno : σ.active .writer + σ.waits .writer ≤ 0 := by simpa [RwState.blocked] using hblocked
      exact .inl (by simp [RwState.letIn, RwState.goto]; omega)
    | writer =>
      have hno : σ.active .reader + σ.active .writer ≤ 0 := by simpa [RwState.blocked] using hblocked
      exact .inr (by simp [RwState.letIn, RwState.goto]; omega)
  case readers =>
    intro hne
    cases m with
    | writer =>
      refine .inl ?_
      simp only [RwState.letIn, RwState.goto, RwState.AW, RwState.WW, Function.update_self]
      omega
    | reader =>
      refine (h.readers hne).imp id fun ⟨u, hu⟩ => ⟨u, ?_⟩
      have hut : u ≠ t := fun hut => by
        subst hut
        simp [hpoint] at hu
      simpa [RwState.letIn, RwState.goto, hut] using hu
  case writers =>
    intro hne hzero hzero'
    cases m with
    | reader =>
      simp [RwState.letIn, RwState.goto] at hzero
      omega
    | writer =>
      simp [RwState.letIn, RwState.goto] at hzero'
      omega

/-- A thread comes back from `cond_wait`. -/
theorem RwInv.resume {σ : RwState T} (h : RwInv σ) {t : T} {m : RwMode}
    (hpoint : σ.point t = .resumed m) : RwInv (σ.resume t m) := by
  constructor
  case guarded => exact h.guarded.goto (by rw [hpoint]; rfl)
  case counted =>
    refine h.counted.move (p := .testing m) rfl (fun m' => ?_) (fun m' => ?_)
    · simp [RwState.resume, RwState.goto, hpoint, RwPoint.holds]
    · by_cases hm : m' = m
      · subst hm
        simp [RwState.resume, RwState.goto, hpoint, RwPoint.waits]
      · simp [RwState.resume, RwState.goto, hpoint, RwPoint.waits, hm, Ne.symm hm]
  case queued => exact h.queued.goto rfl rfl rfl fun m' => by rw [hpoint]; rfl
  case exclusive => exact h.exclusive
  case readers =>
    intro hne
    cases m with
    | writer => exact .inr ⟨t, .inl (by simp [RwState.resume, RwState.goto])⟩
    | reader =>
      refine (h.readers hne).imp id fun ⟨u, hu⟩ => ⟨u, ?_⟩
      have hut : u ≠ t := fun hut => by
        subst hut
        simp [hpoint] at hu
      simpa [RwState.resume, RwState.goto, hut] using hu
  case writers =>
    intro hne hAR hAW
    cases m with
    | writer => exact ⟨t, .inr (.inl (by simp [RwState.resume, RwState.goto]))⟩
    | reader =>
      obtain ⟨u, hu⟩ := h.writers hne hAR hAW
      have hut : u ≠ t := fun hut => by
        subst hut
        simp [RwState.coming, hpoint] at hu
      refine ⟨u, ?_⟩
      simpa [RwState.coming, RwState.resume, RwState.goto, hut] using hu

omit [DecidableEq T] in
/-- Whoever is on the waiters is counted. -/
theorem RwInv.waits_pos {σ : RwState T} (h : RwInv σ) {m : RwMode} (hne : σ.waiters m ≠ []) :
    0 < σ.waits m := by
  obtain ⟨u, hu⟩ := List.exists_mem_of_ne_nil _ hne
  rw [h.counted.waits, tally_pos_iff]
  refine ⟨u, ?_⟩
  have hstopped := ((h.queued.mem m u).1 hu).1
  cases hp : σ.point u <;> simp_all [RwPoint.stopped, RwPoint.waits]

omit [DecidableEq T] in
/-- A thread that gives the lock up is counted, and then no other writer is. -/
theorem RwInv.dropped {σ : RwState T} (h : RwInv σ) {t : T} {m : RwMode}
    (hpoint : σ.point t = .dropping m) :
    0 < σ.active m ∧ (m = .writer → σ.active .writer = 1 ∧ σ.active .reader = 0) ∧
      (m = .reader → σ.active .writer = 0) := by
  have hpos : 0 < σ.active m := by
    rw [h.counted.active, tally_pos_iff]
    exact ⟨t, by simp [hpoint, RwPoint.holds]⟩
  have hexclusive := h.exclusive
  simp only [RwState.AW, RwState.AR] at hexclusive
  refine ⟨hpos, fun hm => ?_, fun hm => ?_⟩
  · subst hm
    omega
  · subst hm
    omega

omit [DecidableEq T] [Fintype T] in
/-- A thread that has been counted out holds the guard and nothing else. -/
theorem RwState.afterDrop_kind (σ : RwState T) (m m' : RwMode) :
    (σ.afterDrop m).guarded = true ∧ (σ.afterDrop m).holds m' = false ∧
      (σ.afterDrop m).waits m' = false ∧ (σ.afterDrop m).stopped m' = false := by
  cases m <;> simp only [RwState.afterDrop] <;> split_ifs <;> exact ⟨rfl, rfl, rfl, rfl⟩

/-- A thread gives the lock up: the waiting writers are signalled, and if there
are none the readers, or there is nobody to wake. -/
theorem RwInv.drop {σ : RwState T} (h : RwInv σ) {t : T} {m : RwMode}
    (hpoint : σ.point t = .dropping m) :
    RwInv ((σ.uncount m).goto t ((σ.uncount m).afterDrop m)) := by
  obtain ⟨hpos, hwriter, hreader⟩ := h.dropped hpoint
  have hafter := (σ.uncount m).afterDrop_kind m
  constructor
  case guarded =>
    have hguarded : Guarded (σ.uncount m) := h.guarded
    refine hguarded.goto ?_
    rw [(hafter m).1]
    simp [RwState.uncount, hpoint, RwPoint.guarded]
  case counted =>
    refine h.counted.move (p := (σ.uncount m).afterDrop m) rfl (fun m' => ?_) (fun m' => ?_)
    · rw [(hafter m').2.1, hpoint]
      by_cases hm : m' = m
      · subst hm
        simp [RwState.uncount, RwState.goto, RwPoint.holds]
      · simp [RwState.uncount, RwState.goto, RwPoint.holds, hm, Ne.symm hm]
    · rw [(hafter m').2.2.1, hpoint]
      simp [RwState.uncount, RwState.goto, RwPoint.waits]
  case queued =>
    refine h.queued.goto rfl rfl rfl fun m' => ?_
    rw [(hafter m').2.2.2, hpoint]
    rfl
  case exclusive =>
    refine .inl ?_
    cases m with
    | reader => simpa [RwState.uncount, RwState.goto] using hreader rfl
    | writer =>
      simp only [RwState.uncount, RwState.goto, RwState.AW, Function.update_self]
      have hone := (hwriter rfl).1
      omega
  case readers =>
    intro hne
    have hWR : 0 < σ.waits .reader := h.waits_pos hne
    cases m with
    | writer =>
      by_cases hWW : 0 < σ.waits .writer
      · refine .inl ?_
        have hone := (hwriter rfl).1
        simp only [RwState.uncount, RwState.goto, RwState.AW, RwState.WW, Function.update_self]
        omega
      · refine .inr ⟨t, .inr ?_⟩
        simp [RwState.afterDrop, RwState.uncount, RwState.goto, hWW, hWR]
    | reader =>
      refine (h.readers hne).imp id fun ⟨u, hu⟩ => ⟨u, ?_⟩
      have hut : u ≠ t := fun hut => by
        subst hut
        simp [hpoint] at hu
      simpa [RwState.uncount, RwState.goto, hut] using hu
  case writers =>
    intro hne hAR _
    have hWW : 0 < σ.waits .writer := h.waits_pos hne
    refine ⟨t, .inr (.inr ?_)⟩
    cases m with
    | reader =>
      have hzero : σ.active .reader - 1 = 0 := by
        simpa [RwState.uncount, RwState.goto] using hAR
      simp [RwState.afterDrop, RwState.uncount, RwState.goto, hWW, hzero]
    | writer => simp [RwState.afterDrop, RwState.uncount, RwState.goto, hWW]

/-- The writer that is signalled is on its way. -/
theorem RwInv.signal {σ : RwState T} (h : RwInv σ) {k : Kernel} {less : T → T → Bool} {t : T}
    {w : Option T} {rest : List T} (hpoint : σ.point t = .signalling)
    (hsignal : condSignal less k (σ.waiters .writer) = some (w, rest)) :
    RwInv ((σ.signal .writer w rest).goto t .leaving) := by
  obtain ⟨hperm, hnone⟩ := condSignal_cases hsignal
  have hqueued := h.queued.signal hsignal
  constructor
  case guarded =>
    have hguarded : Guarded (σ.signal .writer w rest) := h.guarded
    exact hguarded.goto (by simp [RwState.signal, hpoint, RwPoint.guarded])
  case counted =>
    refine h.counted.move (p := .leaving) rfl (fun m => ?_) (fun m => ?_)
    · simp [RwState.signal, RwState.goto, hpoint, RwPoint.holds]
    · simp [RwState.signal, RwState.goto, hpoint, RwPoint.waits]
  case queued =>
    exact hqueued.goto rfl rfl rfl fun m => by simp [RwState.signal, hpoint, RwPoint.stopped]
  case exclusive => exact h.exclusive
  case readers =>
    intro hne
    refine (h.readers (by simpa [RwState.signal, RwState.goto] using hne)).imp id
      fun ⟨u, hu⟩ => ⟨u, ?_⟩
    have hut : u ≠ t := fun hut => by
      subst hut
      simp [hpoint] at hu
    simpa [RwState.signal, RwState.goto, hut] using hu
  case writers =>
    intro hne _ _
    have hrest : rest ≠ [] := by simpa [RwState.signal, RwState.goto] using hne
    cases w with
    | none =>
      rw [hnone rfl] at hperm
      exact absurd hperm.eq_nil hrest
    | some u =>
      -- the thread signalled has given the guard back, which the signalling thread holds
      have hstopped := ((h.queued.mem .writer u).1 (hperm.mem_iff.1 (by simp))).1
      have hut : u ≠ t := fun hut => by simp [hut, hpoint, RwPoint.stopped] at hstopped
      have hwaiting : σ.point u = .waiting .writer := by
        have hno : (σ.point u).guarded ≠ true := fun hu =>
          hut (h.guarded.eq (by rw [hpoint]; rfl) hu)
        cases hp : σ.point u <;> simp_all [RwPoint.stopped, RwPoint.guarded]
      refine ⟨u, .inl (.inl ⟨?_, ?_⟩)⟩
      · simpa [RwState.signal, RwState.goto, hut] using hwaiting
      · simp [RwState.signal, RwState.goto]

/-- A reader is signalled, and the thread goes on with the others. -/
theorem RwInv.broadcast {σ : RwState T} (h : RwInv σ) {k : Kernel} {less : T → T → Bool} {t : T}
    {w : Option T} {rest : List T} (hpoint : σ.point t = .broadcasting)
    (hsignal : condSignal less k (σ.waiters .reader) = some (w, rest)) :
    RwInv (σ.signal .reader w rest) where
  guarded := h.guarded
  counted := ⟨h.counted.active, h.counted.waits⟩
  queued := h.queued.signal hsignal
  exclusive := h.exclusive
  readers _ := .inr ⟨t, .inr hpoint⟩
  writers hne hAR hAW := by
    obtain ⟨u, hu⟩ := h.writers (by simpa [RwState.signal] using hne) hAR hAW
    exact ⟨u, hu.imp (fun hu => hu.signal w rest) id⟩

/-- All the readers have been signalled. -/
theorem RwInv.broadcasted {σ : RwState T} (h : RwInv σ) {t : T}
    (hpoint : σ.point t = .broadcasting) (hnone : σ.waiters .reader = []) :
    RwInv (σ.goto t .leaving) := by
  constructor
  case guarded => exact h.guarded.goto (by rw [hpoint]; rfl)
  case counted =>
    refine h.counted.move (p := .leaving) rfl (fun m => ?_) (fun m => ?_)
    · simp [RwState.goto, hpoint, RwPoint.holds]
    · simp [RwState.goto, hpoint, RwPoint.waits]
  case queued => exact h.queued.goto rfl rfl rfl fun m => by rw [hpoint]; rfl
  case exclusive => exact h.exclusive
  case readers => exact fun hne => absurd hnone hne
  case writers =>
    intro hne hAR hAW
    obtain ⟨u, hu⟩ := h.writers hne hAR hAW
    have hut : u ≠ t := fun hut => by
      subst hut
      simp [RwState.coming, hpoint] at hu
    refine ⟨u, ?_⟩
    simpa [RwState.coming, RwState.goto, hut] using hu

/-- The same for a thread no waiter relies on. -/
theorem RwInv.pass {σ σ' : RwState T} (h : RwInv σ) {t : T} {p : RwPoint}
    (hguarded : Guarded σ') (hpoint : σ'.point = Function.update σ.point t p)
    (hactive : σ'.active = σ.active) (hwaits : σ'.waits = σ.waits)
    (hwaiters : σ'.waiters = σ.waiters) (hsema : σ'.sema = σ.sema)
    (hkind : ∀ m, p.holds m = (σ.point t).holds m ∧ p.waits m = (σ.point t).waits m ∧
      p.stopped m = (σ.point t).stopped m)
    (hwakes : (σ.point t).wakes = false) : RwInv σ' := by
  refine h.quiet hguarded hpoint hactive hwaits hwaiters (fun u _ => by rw [hsema])
    (fun m => ⟨(hkind m).1, (hkind m).2.1⟩) (fun m => by rw [(hkind m).2.2, hsema])
    (fun hcoming => ?_) ⟨?_, ?_, ?_⟩
  · rcases hcoming with ⟨hp, -⟩ | hp | hp <;> simp [hp, RwPoint.wakes] at hwakes
  all_goals
    intro hp
    simp [hp, RwPoint.wakes] at hwakes

/-- **Every step keeps it.** -/
theorem RwInv.step {σ σ' : RwState T} {k : Kernel} {t : T} (h : RwInv σ) (hs : RwStep k t σ σ') :
    RwInv σ' := by
  cases hs with
  | call m hpoint | release hpoint =>
    exact h.pass (h.guarded.goto (by rw [hpoint]; rfl)) rfl rfl rfl rfl rfl
      (fun _ => by rw [hpoint]; exact ⟨rfl, rfl, rfl⟩) (by rw [hpoint]; rfl)
  | enter hpoint hfree | exit hpoint hfree =>
    exact h.pass (h.guarded.lock hfree rfl) rfl rfl rfl rfl rfl
      (fun _ => by rw [hpoint]; exact ⟨rfl, rfl, rfl⟩) (by rw [hpoint]; rfl)
  | wait hpoint | acquired hpoint | leave hpoint =>
    exact h.pass (h.guarded.unlock (by rw [hpoint]; rfl) rfl) rfl rfl rfl rfl rfl
      (fun _ => by rw [hpoint]; exact ⟨rfl, rfl, rfl⟩) (by rw [hpoint]; rfl)
  | @down m hpoint hsema =>
    have hguarded : Guarded (σ.downed t) := h.guarded
    refine h.quiet (hguarded.goto (by simp [RwState.downed, hpoint, RwPoint.guarded])) rfl rfl rfl
      rfl (fun u hu => by simp [RwState.downed, RwState.goto, hu])
      (fun _ => by rw [hpoint]; exact ⟨rfl, rfl⟩) (fun m' => ?_) (fun hc => ?_) (by simp [hpoint])
    · simp [hpoint, RwPoint.stopped, Nat.pos_iff_ne_zero.1 hsema]
    · have hm : m = RwMode.writer ∧ 0 < σ.sema t := by simpa [RwState.coming, hpoint] using hc
      exact .inr (.inl (by simp [RwState.goto, hm]))
  | @relock m hpoint hfree =>
    refine h.quiet (h.guarded.lock hfree rfl) rfl rfl rfl rfl (fun _ _ => rfl)
      (fun _ => by rw [hpoint]; exact ⟨rfl, rfl⟩) (fun _ => by simp [hpoint, RwPoint.stopped])
      (fun hc => ?_) (by simp [hpoint])
    have hm : m = RwMode.writer := by simpa [RwState.coming, hpoint] using hc
    exact .inr (.inr (by simp [RwState.goto, hm]))
  | park hpoint hblocked => exact h.park hpoint hblocked
  | letIn hpoint hblocked => exact h.letIn hpoint hblocked
  | resume hpoint => exact h.resume hpoint
  | drop hpoint => exact h.drop hpoint
  | signal less w rest hpoint hsignal => exact h.signal hpoint hsignal
  | broadcast less w rest hpoint hne hsignal => exact h.broadcast hpoint hsignal
  | broadcasted hpoint hnone => exact h.broadcasted hpoint hnone

theorem RwReach.inv {k : Kernel} {σ : RwState T} (h : RwReach k σ) : RwInv σ := by
  induction h with
  | init => exact rwInv_init
  | step _ hs ih => exact ih.step hs

/-! ### A reader, and a writer that waits for it -/

/-- Thread 0 has the lock as a reader. -/
def readerHolds : RwState (Fin 3) :=
  ((((RwState.init.goto 0 (.entering .reader)).lock 0).goto 0 (.testing .reader)).letIn 0
    .reader).unlock.goto 0 (.holding .reader)

/-- Thread 1 waits for it. -/
def writerWaits : RwState (Fin 3) :=
  ((((readerHolds.goto 1 (.entering .writer)).lock 1).goto 1 (.testing .writer)).park 1
    .writer).unlock.goto 1 (.waiting .writer)

/-- Thread 0 has given the lock up and signalled thread 1. -/
def writerSignalled : RwState (Fin 3) :=
  ((((((writerWaits.goto 0 (.exiting .reader)).lock 0).goto 0 (.dropping .reader)).uncount
    .reader).goto 0 .signalling).signal .writer (some 1) []).goto 0 .leaving |>.unlock.goto 0 .outside

theorem writerWaits_reach (k : Kernel) : RwReach k writerWaits := by
  have hinit : RwReach k (RwState.init : RwState (Fin 3)) := .init
  have hentered := (hinit.step (.call (t := 0) .reader rfl)).step (.enter (t := 0) rfl rfl)
  have hholds := (hentered.step (.letIn (t := 0) rfl rfl)).step (.acquired (t := 0) rfl)
  have hsecond := (hholds.step (.call (t := 1) .writer rfl)).step (.enter (t := 1) rfl rfl)
  exact (hsecond.step (.park (t := 1) rfl rfl)).step (.wait (t := 1) rfl)

theorem writerSignalled_reach (k : Kernel) : RwReach k writerSignalled := by
  have hexit := ((writerWaits_reach k).step (.release (t := 0) rfl)).step (.exit (t := 0) rfl rfl)
  have hdrop := hexit.step (.drop (t := 0) rfl)
  have hsignal := hdrop.step (.signal (t := 0) (fun _ _ => false) (some 1) [] rfl
    (by cases k <;> rfl))
  exact hsignal.step (.leave (t := 0) rfl)

/-! ### Safety -/

/-- **The lock excludes, and its counters count.**  In every state reached a
writer has the lock alone, `AR`, `AW`, `WR` and `WW` are the numbers of threads
that hold the lock and that wait, and a reader is let in only when no writer
holds the lock or waits. -/
theorem rwLock_safe {k : Kernel} {σ : RwState T} (h : RwReach k σ) :
    σ.AW ≤ 1 ∧ (σ.AW = 1 → σ.AR = 0) ∧
    (σ.AR = tally (RwPoint.holds .reader) σ.point ∧ σ.AW = tally (RwPoint.holds .writer) σ.point) ∧
    (σ.WR = tally (RwPoint.waits .reader) σ.point ∧ σ.WW = tally (RwPoint.waits .writer) σ.point) ∧
    ∀ t σ', RwStep k t σ σ' → σ.point t = .testing .reader → σ'.point t = .admitted .reader →
      σ.AW + σ.WW = 0 := by
  have hinv := h.inv
  have hexclusive := hinv.exclusive
  refine ⟨by omega, by omega, ⟨hinv.counted.active _, hinv.counted.active _⟩,
    ⟨hinv.counted.waits _, hinv.counted.waits _⟩, fun t σ' hs ht ht' => ?_⟩
  have hnonneg := hinv.counted.nonneg .writer
  have hblocked : σ.blocked .reader = false := by
    cases hs <;> simp_all [RwState.goto, RwState.park]
  have hno : σ.active .writer + σ.waits .writer ≤ 0 := by simpa [RwState.blocked] using hblocked
  simp only [RwState.AW, RwState.WW]
  omega

/-- A reader has the lock, and a writer waits for it. -/
theorem rwLock_safe_writerWaits :
    writerWaits.AW ≤ 1 ∧ (writerWaits.AW = 1 → writerWaits.AR = 0) ∧
    (writerWaits.AR = tally (RwPoint.holds .reader) writerWaits.point ∧
      writerWaits.AW = tally (RwPoint.holds .writer) writerWaits.point) ∧
    (writerWaits.WR = tally (RwPoint.waits .reader) writerWaits.point ∧
      writerWaits.WW = tally (RwPoint.waits .writer) writerWaits.point) ∧
    ∀ t σ', RwStep .projects t writerWaits σ' → writerWaits.point t = .testing .reader →
      σ'.point t = .admitted .reader → writerWaits.AW + writerWaits.WW = 0 :=
  rwLock_safe (writerWaits_reach .projects)

/-! ### Nobody is stranded -/

/-- **Waiters are not stranded.**  When the guard and the lock are free and a
thread is still queued, a signalled one is on its way; and a queued reader is
one that a writer holds off. -/
theorem rwLock_wakes {k : Kernel} {σ : RwState T} (h : RwReach k σ) (hguard : σ.guard = none) :
    (σ.AR = 0 → σ.AW = 0 → (∃ m u, u ∈ σ.waiters m) → ∃ m v, σ.coming m v) ∧
    ((∃ u, u ∈ σ.waiters .reader) → 0 < σ.AW + σ.WW) := by
  have hinv := h.inv
  have hout : ∀ u, (σ.point u).guarded = false := fun u => by
    have hu := hinv.guarded u
    rw [hguard] at hu
    simpa using hu
  have hreaders : σ.waiters .reader ≠ [] → 0 < σ.AW + σ.WW := by
    intro hne
    rcases hinv.readers hne with hpos | ⟨u, hu | hu⟩
    · exact hpos
    all_goals exact absurd (hout u) (by rw [hu]; decide)
  have hwriters : σ.waiters .writer ≠ [] → σ.AR = 0 → σ.AW = 0 → ∃ m v, σ.coming m v := by
    intro hne hAR hAW
    obtain ⟨u, hu | hu | hu⟩ := hinv.writers hne hAR hAW
    · exact ⟨_, u, hu⟩
    all_goals exact absurd (hout u) (by rw [hu]; decide)
  refine ⟨fun hAR hAW ⟨m, u, hu⟩ => ?_, fun ⟨u, hu⟩ => hreaders (List.ne_nil_of_mem hu)⟩
  by_cases hne : σ.waiters .writer = []
  · cases m with
    | writer => exact absurd hne (List.ne_nil_of_mem hu)
    | reader =>
      -- the writers the reader gave way to have all been signalled
      have hpos := hreaders (List.ne_nil_of_mem hu)
      simp only [RwState.AW, RwState.WW] at hAW hpos
      rw [hAW, Int.zero_add, hinv.counted.waits, tally_pos_iff] at hpos
      obtain ⟨v, hv⟩ := hpos
      have hqueued := hinv.queued.mem .writer v
      rw [hne] at hqueued
      refine ⟨.writer, v, ?_⟩
      have hv' := hout v
      cases hp : σ.point v <;> simp_all [RwPoint.waits, RwPoint.guarded, RwPoint.stopped,
        RwState.coming, Nat.pos_iff_ne_zero]
  · exact hwriters hne hAR hAW

/-- Thread 2 waits to read, behind the writer. -/
def readerWaits : RwState (Fin 3) :=
  ((((writerWaits.goto 2 (.entering .reader)).lock 2).goto 2 (.testing .reader)).park 2
    .reader).unlock.goto 2 (.waiting .reader)

/-- Thread 0 has given the lock up and signalled thread 1, and thread 2 is still queued. -/
def readerQueued : RwState (Fin 3) :=
  ((((((readerWaits.goto 0 (.exiting .reader)).lock 0).goto 0 (.dropping .reader)).uncount
    .reader).goto 0 .signalling).signal .writer (some 1) []).goto 0 .leaving |>.unlock.goto 0 .outside

theorem readerQueued_reach (k : Kernel) : RwReach k readerQueued := by
  have hcall := ((writerWaits_reach k).step (.call (t := 2) .reader rfl)).step (.enter (t := 2) rfl rfl)
  have hwaits := (hcall.step (.park (t := 2) rfl rfl)).step (.wait (t := 2) rfl)
  have hexit := (hwaits.step (.release (t := 0) rfl)).step (.exit (t := 0) rfl rfl)
  have hsignal := (hexit.step (.drop (t := 0) rfl)).step
    (.signal (t := 0) (fun _ _ => false) (some 1) [] rfl (by cases k <;> rfl))
  exact hsignal.step (.leave (t := 0) rfl)

/-- A reader is queued, nobody has the lock, and the writer that holds the reader off has been
signalled. -/
theorem rwLock_wakes_readerQueued :
    (readerQueued.waiters .reader = [2] ∧ readerQueued.AR = 0 ∧ readerQueued.AW = 0) ∧
    (∃ m v, readerQueued.coming m v) ∧ 0 < readerQueued.AW + readerQueued.WW := by
  obtain ⟨hcoming, hoff⟩ := rwLock_wakes (readerQueued_reach .pregame) rfl
  have hqueued : 2 ∈ readerQueued.waiters .reader := List.mem_singleton_self _
  exact ⟨⟨rfl, rfl, rfl⟩, hcoming rfl rfl ⟨_, 2, hqueued⟩, hoff ⟨2, hqueued⟩⟩

end Tallies

end Threads
end CS162

/-
# Interrupt queues

`projects1-3/src/devices/intq.c`: a queue of bytes between threads and interrupt handlers.

The functions run with interrupts disabled, so a thread gives up the processor only where it
sleeps (in `lock_acquire`, or in `wait`) and where `lock_release` lets a waiter run first.  What it
does between two such places is one turn.  A handler may come in between turns.  Which of the
threads that sleep in `lock_acquire` finds the lock free is left open.

Whatever the order, the queue is one of 63 bytes, first in and first out, and a thread sleeps in
`wait` only while it has reason to.  A thread that slept in `lock_acquire` asserts in `wait` that it
still has to wait, which a byte moved in the meantime makes false: this, and a handler that would have
to wait, is how an assertion fails, and nothing else is (`intq_serves`).
-/

import CS162.Basis.RingBuffer
import CS162.Threads.Semaphore

namespace CS162
namespace Devices

open CS162.Basis CS162.Threads

/-! ### Queues -/

/-- `INTQ_BUFSIZE`. -/
abbrev INTQ_BUFSIZE : ℕ := 64

theorem INTQ_BUFSIZE_pos : 0 < INTQ_BUFSIZE := Nat.zero_lt_succ 63

/-- `struct intq`; of the lock, its holder. -/
structure Intq extends RingBuffer UInt8 INTQ_BUFSIZE where
  lock : Option ThreadId
  notFull : Option ThreadId
  notEmpty : Option ThreadId

/-- What is waited for. -/
inductive QueueCond where
  | notFull
  | notEmpty
deriving DecidableEq

/-- `intq_full` or `intq_empty`. -/
def Intq.Lacks (q : Intq) : QueueCond → Prop
  | .notFull => q.Full
  | .notEmpty => q.Empty

instance (q : Intq) (cond : QueueCond) : Decidable (q.Lacks cond) := by
  cases cond <;> unfold Intq.Lacks <;> infer_instance

/-- The member of the queue that `wait` and `signal` are given. -/
def Intq.waiter (q : Intq) : QueueCond → Option ThreadId
  | .notFull => q.notFull
  | .notEmpty => q.notEmpty

def Intq.setWaiter (q : Intq) (t : Option ThreadId) : QueueCond → Intq
  | .notFull => { q with notFull := t }
  | .notEmpty => { q with notEmpty := t }

/-- `intq_getc`, or `intq_putc` with its byte. -/
inductive QueueCall where
  | getc
  | putc (byte : UInt8)
deriving DecidableEq

/-- What the loop of the call waits for. -/
def QueueCall.awaits : QueueCall → QueueCond
  | .getc => .notEmpty
  | .putc _ => .notFull

/-- What the call signals at its end. -/
def QueueCall.signals : QueueCall → QueueCond
  | .getc => .notFull
  | .putc _ => .notEmpty

/-- What the call does to the bytes. -/
def QueueCall.move (call : QueueCall) (q : Intq) : Intq :=
  match call with
  | .getc => { q with toRingBuffer := q.remove }
  | .putc byte => { q with toRingBuffer := q.add byte }

/-- A byte that came in, or one that went out. -/
inductive Moved where
  | came (byte : UInt8)
  | went (byte : UInt8)
deriving DecidableEq

def QueueCall.moved (call : QueueCall) (q : Intq) : Moved :=
  match call with
  | .getc => .went q.oldest
  | .putc byte => .came byte

/-! ### Threads and handlers -/

/-- Where a thread is. -/
inductive QueueStage where
  /-- In none of the functions. -/
  | out
  /-- Before the condition of the loop. -/
  | loop (call : QueueCall)
  /-- Asleep in `lock_acquire`. -/
  | locking (call : QueueCall)
  /-- Asleep in `wait`. -/
  | waiting (call : QueueCall)
  /-- Unblocked, in `wait`. -/
  | woken (call : QueueCall)
deriving DecidableEq

/-- A queue and the threads that use it. -/
structure QueueUsers where
  q : Intq
  stage : ThreadId → QueueStage

def QueueUsers.goto (s : QueueUsers) (t : ThreadId) (stage : QueueStage) : QueueUsers :=
  { s with stage := Function.update s.stage t stage }

/-- `signal`; `none` is an assertion that fails, here or in `thread_unblock`. -/
def QueueUsers.signal (s : QueueUsers) (cond : QueueCond) : Option QueueUsers :=
  if s.q.Lacks cond then none
  else match s.q.waiter cond with
    | none => some s
    | some u => match s.stage u with
      | .waiting call => some { s.goto u (.woken call) with q := s.q.setWaiter none cond }
      | _ => none

/-- What follows the loop. -/
def QueueUsers.finish (s : QueueUsers) (call : QueueCall) : Option (QueueUsers × List Moved) := do
  let s' ← { s with q := call.move s.q }.signal call.signals
  return (s', [call.moved s.q])

/-- `wait`, up to `thread_block`. -/
def QueueUsers.wait (s : QueueUsers) (t : ThreadId) (call : QueueCall) : Option QueueUsers :=
  if s.q.Lacks call.awaits then
    some { s.goto t (.waiting call) with q := s.q.setWaiter (some t) call.awaits }
  else none

/-- `lock_acquire`, and `wait` after it. -/
def QueueUsers.lockAcquire (s : QueueUsers) (t : ThreadId) (call : QueueCall) : Option QueueUsers :=
  if s.q.lock = none then { s with q := { s.q with lock := some t } }.wait t call
  else some (s.goto t (.locking call))

/-- **A turn of a thread**: what it does until it sleeps, returns or gives the lock back. -/
def QueueUsers.turn (s : QueueUsers) (t : ThreadId) : Option (QueueUsers × List Moved) :=
  match s.stage t with
  | .out => some (s, [])
  | .loop call =>
    if s.q.Lacks call.awaits then
      -- `lock_acquire` asserts that the lock is not its own already
      if s.q.lock = some t then none else do return (← s.lockAcquire t call, [])
    else (s.goto t .out).finish call
  | .locking call => do return (← s.lockAcquire t call, [])
  | .waiting _ => some (s, [])
  | .woken call =>
    -- `lock_release`, which asserts that the lock is its own
    if s.q.lock = some t then
      some ({ s.goto t (.loop call) with q := { s.q with lock := none } }, [])
    else none

/-- A call by an interrupt handler, which must not wait. -/
def QueueUsers.interrupt (s : QueueUsers) (call : QueueCall) : Option (QueueUsers × List Moved) :=
  if s.q.Lacks call.awaits then none else s.finish call

/-- What happens next. -/
inductive QueueEvent where
  /-- The thread calls one of the functions. -/
  | enter (t : ThreadId) (call : QueueCall)
  | turn (t : ThreadId)
  | interrupt (call : QueueCall)

def QueueUsers.step (s : QueueUsers) : QueueEvent → Option (QueueUsers × List Moved)
  | .enter t call => if s.stage t = .out then some (s.goto t (.loop call), []) else some (s, [])
  | .turn t => s.turn t
  | .interrupt call => s.interrupt call

/-- The bytes that `events` move, and what they lead to. -/
def QueueUsers.run (s : QueueUsers) : List QueueEvent → Option (QueueUsers × List Moved)
  | [] => some (s, [])
  | event :: events => do
    let (s', moved) ← s.step event
    let (s'', moved') ← s'.run events
    return (s'', moved ++ moved')

/-- `intq_init`; what is in `buf` is left as it is. -/
def intqInit (buf : Fin INTQ_BUFSIZE → UInt8) : QueueUsers where
  q := ⟨⟨buf, ⟨0, INTQ_BUFSIZE_pos⟩, ⟨0, INTQ_BUFSIZE_pos⟩⟩, none, none, none⟩
  stage := fun _ => .out

/-! ### Bytes -/

def came (moved : List Moved) : List UInt8 :=
  moved.filterMap fun | .came byte => some byte | .went _ => none

def went (moved : List Moved) : List UInt8 :=
  moved.filterMap fun | .came _ => none | .went byte => some byte

theorem came_append (l m : List Moved) : came (l ++ m) = came l ++ came m := List.filterMap_append

theorem went_append (l m : List Moved) : went (l ++ m) = went l ++ went m := List.filterMap_append

/-- A call that need not wait moves its byte. -/
theorem QueueCall.contents_move {call : QueueCall} {q : Intq} (h : ¬q.Lacks call.awaits) :
    q.contents ++ came [call.moved q] = went [call.moved q] ++ (call.move q).contents := by
  cases call with
  | getc =>
    change q.contents ++ [] = [q.oldest] ++ q.remove.contents
    rw [List.append_nil, RingBuffer.contents_remove h, List.singleton_append]
  | putc byte => exact (RingBuffer.contents_add h byte).symm

/-- What a call signals is true. -/
theorem QueueCall.not_lacks_move {call : QueueCall} {q : Intq} (h : ¬q.Lacks call.awaits) :
    ¬(call.move q).Lacks call.signals := by
  cases call with
  | getc =>
    change ¬q.remove.Full
    have hlt := q.length_contents_lt
    rw [RingBuffer.contents_remove h, List.length_cons] at hlt
    rw [RingBuffer.full_iff]
    exact hlt.ne
  | putc byte =>
    change ¬(q.add byte).Empty
    rw [RingBuffer.empty_iff, RingBuffer.contents_add h]
    simp

/-! ### Whatever the order -/

/-- The lock is held from `wait` until it is given back. -/
def QueueStage.Holds : QueueStage → Prop
  | .waiting _ | .woken _ => True
  | _ => False

/-- What holds between any two turns. -/
structure Served (s : QueueUsers) : Prop where
  lock_iff : ∀ t, s.q.lock = some t ↔ (s.stage t).Holds
  waiter_iff : ∀ t cond, s.q.waiter cond = some t ↔
    ∃ call, s.stage t = .waiting call ∧ call.awaits = cond
  lacks : ∀ t call, s.stage t = .waiting call → s.q.Lacks call.awaits

@[simp] theorem setWaiter_lock (q : Intq) (t : Option ThreadId) (cond : QueueCond) :
    (q.setWaiter t cond).lock = q.lock := by cases cond <;> rfl

@[simp] theorem setWaiter_toRingBuffer (q : Intq) (t : Option ThreadId) (cond : QueueCond) :
    (q.setWaiter t cond).toRingBuffer = q.toRingBuffer := by cases cond <;> rfl

@[simp] theorem lacks_setWaiter (q : Intq) (t : Option ThreadId) (cond cond' : QueueCond) :
    (q.setWaiter t cond).Lacks cond' ↔ q.Lacks cond' := by cases cond <;> cases cond' <;> rfl

theorem setWaiter_waiter (q : Intq) (t : Option ThreadId) (cond cond' : QueueCond) :
    (q.setWaiter t cond).waiter cond' = if cond' = cond then t else q.waiter cond' := by
  cases cond <;> cases cond' <;> rfl

@[simp] theorem move_lock (call : QueueCall) (q : Intq) : (call.move q).lock = q.lock := by
  cases call <;> rfl

@[simp] theorem move_waiter (call : QueueCall) (q : Intq) (cond : QueueCond) :
    (call.move q).waiter cond = q.waiter cond := by cases call <;> cases cond <;> rfl

theorem QueueCall.awaits_of_ne_signals {call : QueueCall} {cond : QueueCond}
    (h : cond ≠ call.signals) : cond = call.awaits := by
  cases call <;> cases cond <;> first | rfl | exact absurd rfl h

@[simp] theorem goto_stage (s : QueueUsers) (t u : ThreadId) (stage : QueueStage) :
    (s.goto t stage).stage u = if u = t then stage else s.stage u := Function.update_apply ..

@[simp] theorem goto_q (s : QueueUsers) (t : ThreadId) (stage : QueueStage) :
    (s.goto t stage).q = s.q := rfl

/-- A thread without the lock goes where it has not got it either. -/
theorem Served.goto {s : QueueUsers} (h : Served s) {t : ThreadId} (stage : QueueStage)
    (hold : ¬(s.stage t).Holds) (hnew : ¬stage.Holds) : Served (s.goto t stage) := by
  have hnot {call : QueueCall} : stage ≠ .waiting call := by
    rintro rfl
    exact hnew trivial
  have hnot' {call : QueueCall} : s.stage t ≠ .waiting call := fun heq => by
    rw [heq] at hold
    exact hold trivial
  refine ⟨fun u => ?_, fun u cond => ?_, fun u call hu => ?_⟩
  · rw [goto_q, goto_stage, h.lock_iff]
    split_ifs with heq
    · rw [heq]
      exact iff_of_false hold hnew
    · rfl
  · rw [goto_q, goto_stage, h.waiter_iff]
    split_ifs with heq
    · subst heq
      simp only [hnot, hnot', false_and]
    · rfl
  · rw [goto_stage] at hu
    split_ifs at hu with heq
    · exact absurd hu hnot
    · exact h.lacks u call hu

/-- **The end of a call**: no assertion fails, and who waits for it is woken. -/
theorem Served.finish {s : QueueUsers} (h : Served s) {call : QueueCall}
    (hcan : ¬s.q.Lacks call.awaits) :
    ∃ s', s.finish call = some (s', [call.moved s.q]) ∧ Served s' ∧
      s'.q.contents = (call.move s.q).contents := by
  -- nobody sleeps on what was true before
  have hnone {u : ThreadId} {c : QueueCall} (hu : s.stage u = .waiting c) :
      c.awaits = call.signals := by
    by_contra hne
    exact hcan (QueueCall.awaits_of_ne_signals hne ▸ h.lacks u c hu)
  unfold QueueUsers.finish QueueUsers.signal
  rw [if_neg (QueueCall.not_lacks_move hcan)]
  dsimp only
  rw [move_waiter]
  cases hw : s.q.waiter call.signals with
  | none =>
    have hno {u : ThreadId} {c : QueueCall} : s.stage u ≠ .waiting c := fun hu => by
      have hsome := (h.waiter_iff u call.signals).2 ⟨c, hu, hnone hu⟩
      rw [hw] at hsome
      cases hsome
    refine ⟨_, rfl, ⟨fun t => ?_, fun t cond => ?_, fun t c ht => absurd ht hno⟩, rfl⟩
    · dsimp only
      rw [move_lock]
      exact h.lock_iff t
    · dsimp only
      rw [move_waiter]
      exact h.waiter_iff t cond
  | some u =>
    obtain ⟨c, hu, hc⟩ := (h.waiter_iff u call.signals).1 hw
    dsimp only
    rw [hu]
    have hlock : s.q.lock = some u := (h.lock_iff u).2 (hu ▸ trivial)
    -- only the holder of the lock sleeps
    have honly {t : ThreadId} {c' : QueueCall} (ht : s.stage t = .waiting c') : t = u := by
      have hlock' := (h.lock_iff t).2 (ht ▸ trivial)
      rw [hlock] at hlock'
      exact (Option.some.inj hlock').symm
    refine ⟨_, rfl, ⟨fun t => ?_, fun t cond => ?_, fun t c' ht => ?_⟩, ?_⟩
    · rw [setWaiter_lock, move_lock, h.lock_iff]
      change _ ↔ ((QueueUsers.goto _ u (.woken c)).stage t).Holds
      rw [goto_stage]
      split_ifs with heq
      · rw [heq, hu]
        exact iff_of_true trivial trivial
      · rfl
    · rw [setWaiter_waiter, move_waiter]
      change _ ↔ ∃ c', (QueueUsers.goto _ u (.woken c)).stage t = .waiting c' ∧ _
      rw [goto_stage]
      split_ifs with hcond heq heq
      · simp
      · refine iff_of_false (by simp) ?_
        rintro ⟨c', ht, -⟩
        exact heq (honly ht)
      · refine iff_of_false (fun hsome => ?_) (by simp)
        obtain ⟨c', ht, rfl⟩ := (h.waiter_iff t cond).1 hsome
        exact hcond (hnone ht)
      · exact h.waiter_iff t cond
    · change (QueueUsers.goto _ u (.woken c)).stage t = _ at ht
      rw [goto_stage] at ht
      split_ifs at ht with heq
      exact absurd (honly ht) heq
    · rw [setWaiter_toRingBuffer]

/-- A thread that is given the lock sleeps in `wait`. -/
theorem Served.wait {s : QueueUsers} (h : Served s) {t : ThreadId} {call : QueueCall}
    (hfree : s.q.lock = none) (hlacks : s.q.Lacks call.awaits) :
    ∃ s', { s with q := { s.q with lock := some t } }.wait t call = some s' ∧ Served s' ∧
      s'.q.contents = s.q.contents := by
  have hno (u : ThreadId) : ¬(s.stage u).Holds := fun hu => by
    have hlock := (h.lock_iff u).2 hu
    rw [hfree] at hlock
    cases hlock
  have hnone {u : ThreadId} {c : QueueCall} : s.stage u ≠ .waiting c := fun hu =>
    hno u (hu ▸ trivial)
  unfold QueueUsers.wait
  rw [if_pos (show Intq.Lacks { s.q with lock := some t } call.awaits by
    cases call <;> exact hlacks)]
  refine ⟨_, rfl, ⟨fun u => ?_, fun u cond => ?_, fun u c hu => ?_⟩, ?_⟩
  · rw [setWaiter_lock]
    change _ ↔ ((s.goto t (.waiting call)).stage u).Holds
    rw [goto_stage]
    split_ifs with heq
    · rw [heq]
      exact iff_of_true rfl trivial
    · exact iff_of_false (fun hsome => heq (Option.some.inj hsome).symm) (hno u)
  · have hwaiter : Intq.waiter { s.q with lock := some t } cond = s.q.waiter cond := by
      cases cond <;> rfl
    rw [setWaiter_waiter, hwaiter]
    change _ ↔ ∃ c, (s.goto t (.waiting call)).stage u = .waiting c ∧ _
    rw [goto_stage]
    split_ifs with hcond heq heq
    · exact iff_of_true (congrArg some heq.symm) ⟨call, rfl, hcond.symm⟩
    · refine iff_of_false (fun hsome => heq (Option.some.inj hsome).symm) ?_
      rintro ⟨c, hu, -⟩
      exact hnone hu
    · refine iff_of_false (fun hsome => ?_) ?_
      · obtain ⟨c, hu, -⟩ := (h.waiter_iff u cond).1 hsome
        exact hnone hu
      · rintro ⟨c, hc, rfl⟩
        cases hc
        exact hcond rfl
    · exact h.waiter_iff u cond
  · change (s.goto t (.waiting call)).stage u = _ at hu
    rw [lacks_setWaiter]
    rw [goto_stage] at hu
    split_ifs at hu
    · cases hu
      cases call <;> exact hlacks
    · exact absurd hu hnone
  · rw [setWaiter_toRingBuffer]

/-- `lock_acquire` and `wait` fail where the lock is free and there is nothing to wait for. -/
theorem Served.lockAcquire {s : QueueUsers} (h : Served s) {t : ThreadId} (call : QueueCall)
    (hout : ¬(s.stage t).Holds) :
    (s.q.lock = none ∧ ¬s.q.Lacks call.awaits ∧ s.lockAcquire t call = none) ∨
      (¬(s.q.lock = none ∧ ¬s.q.Lacks call.awaits) ∧ ∃ s', s.lockAcquire t call = some s' ∧
        Served s' ∧ s'.q.contents = s.q.contents) := by
  unfold QueueUsers.lockAcquire
  by_cases hfree : s.q.lock = none
  · rw [if_pos hfree]
    by_cases hlacks : s.q.Lacks call.awaits
    · exact .inr ⟨fun hboth => hboth.2 hlacks, h.wait hfree hlacks⟩
    · refine .inl ⟨hfree, hlacks, ?_⟩
      unfold QueueUsers.wait
      rw [if_neg]
      cases call <;> exact hlacks
  · rw [if_neg hfree]
    exact .inr ⟨fun hboth => hfree hboth.1, _, rfl, h.goto _ hout not_false, rfl⟩

/-- A waiter that was woken gives the lock back. -/
theorem Served.release {s : QueueUsers} (h : Served s) {t : ThreadId} {call : QueueCall}
    (ht : s.stage t = .woken call) :
    Served { s.goto t (.loop call) with q := { s.q with lock := none } } := by
  have hlock : s.q.lock = some t := (h.lock_iff t).2 (ht ▸ trivial)
  have honly {u : ThreadId} (hu : (s.stage u).Holds) : u = t := by
    have hlock' := (h.lock_iff u).2 hu
    rw [hlock] at hlock'
    exact (Option.some.inj hlock').symm
  refine ⟨fun u => ?_, fun u cond => ?_, fun u c hu => ?_⟩
  · change none = some u ↔ ((s.goto t (.loop call)).stage u).Holds
    rw [goto_stage]
    split_ifs with heq
    · exact iff_of_false (fun hsome => by cases hsome) not_false
    · exact iff_of_false (fun hsome => by cases hsome) fun hu => heq (honly hu)
  · have hwaiter : Intq.waiter { s.q with lock := none } cond = s.q.waiter cond := by
      cases cond <;> rfl
    change Intq.waiter { s.q with lock := none } cond = some u ↔
      ∃ c, (s.goto t (.loop call)).stage u = .waiting c ∧ _
    rw [hwaiter, goto_stage, h.waiter_iff]
    split_ifs with heq
    · rw [heq, ht]
      simp
    · rfl
  · change (s.goto t (.loop call)).stage u = _ at hu
    rw [goto_stage] at hu
    split_ifs at hu with heq
    have hlacks := h.lacks u c hu
    cases c <;> exact hlacks

/-- Where an assertion fails. -/
def QueueUsers.Asserts (s : QueueUsers) : QueueEvent → Prop
  | .enter _ _ => False
  | .turn t => ∃ call, s.stage t = .locking call ∧ s.q.lock = none ∧ ¬s.q.Lacks call.awaits
  | .interrupt call => s.q.Lacks call.awaits

theorem not_asserts_turn {s : QueueUsers} {t : ThreadId} (h : ∀ call, s.stage t ≠ .locking call) :
    ¬s.Asserts (.turn t) := fun ⟨call, hl, _⟩ => h call hl

/-- What a step leads to, if no assertion fails. -/
def QueueUsers.Leads (s : QueueUsers) (r : Option (QueueUsers × List Moved)) : Prop :=
  ∃ s' moved, r = some (s', moved) ∧ Served s' ∧
    s.q.contents ++ came moved = went moved ++ s'.q.contents

theorem QueueUsers.Leads.still {s s' : QueueUsers} (hs : Served s')
    (hq : s'.q.contents = s.q.contents) : s.Leads (some (s', [])) :=
  ⟨s', [], rfl, hs, by rw [hq]; exact List.append_nil _⟩

/-- **A turn.** -/
theorem Served.turn {s : QueueUsers} (h : Served s) (t : ThreadId) :
    (s.Asserts (.turn t) ∧ s.turn t = none) ∨ (¬s.Asserts (.turn t) ∧ s.Leads (s.turn t)) := by
  unfold QueueUsers.turn
  cases ht : s.stage t with
  | out => exact .inr ⟨not_asserts_turn (by simp [ht]), .still h rfl⟩
  | waiting call => exact .inr ⟨not_asserts_turn (by simp [ht]), .still h rfl⟩
  | woken call =>
    refine .inr ⟨not_asserts_turn (by simp [ht]), ?_⟩
    dsimp only
    rw [if_pos ((h.lock_iff t).2 (ht ▸ trivial))]
    exact .still (h.release ht) rfl
  | locking call =>
    have hout : ¬(s.stage t).Holds := by
      rw [ht]
      exact not_false
    dsimp only
    rcases h.lockAcquire call hout with ⟨hfree, hcan, hnone⟩ | ⟨hnot, s', hs', hserved, hq⟩
    · refine .inl ⟨⟨call, ht, hfree, hcan⟩, ?_⟩
      rw [hnone]
      rfl
    · refine .inr ⟨?_, ?_⟩
      · rintro ⟨c, hc, hboth⟩
        rw [ht] at hc
        cases hc
        exact hnot hboth
      · rw [hs']
        exact .still hserved hq
  | loop call =>
    have hout : ¬(s.stage t).Holds := by
      rw [ht]
      exact not_false
    refine .inr ⟨not_asserts_turn (by simp [ht]), ?_⟩
    dsimp only
    by_cases hlacks : s.q.Lacks call.awaits
    · rw [if_pos hlacks, if_neg fun hlock => hout ((h.lock_iff t).1 hlock)]
      rcases h.lockAcquire call hout with ⟨-, hcan, -⟩ | ⟨-, s', hs', hserved, hq⟩
      · exact absurd hlacks hcan
      · rw [hs']
        exact .still hserved hq
    · rw [if_neg hlacks]
      obtain ⟨s', hs', hserved, hq⟩ := (h.goto .out hout not_false).finish hlacks
      refine ⟨s', _, hs', hserved, ?_⟩
      rw [hq]
      exact QueueCall.contents_move hlacks

/-- **One step**: an assertion fails, or what holds between turns holds again. -/
theorem Served.step {s : QueueUsers} (h : Served s) (event : QueueEvent) :
    (s.Asserts event ∧ s.step event = none) ∨ (¬s.Asserts event ∧ s.Leads (s.step event)) := by
  cases event with
  | enter t call =>
    refine .inr ⟨not_false, ?_⟩
    unfold QueueUsers.step
    dsimp only
    split_ifs with hout
    · exact .still (h.goto _ (by rw [hout]; exact not_false) not_false) rfl
    · exact .still h rfl
  | turn t => exact h.turn t
  | interrupt call =>
    unfold QueueUsers.step QueueUsers.interrupt QueueUsers.Asserts
    dsimp only
    by_cases hlacks : s.q.Lacks call.awaits
    · exact .inl ⟨hlacks, if_pos hlacks⟩
    · rw [if_neg hlacks]
      obtain ⟨s', hs', hserved, hq⟩ := h.finish hlacks
      refine .inr ⟨hlacks, s', _, hs', hserved, ?_⟩
      rw [hq]
      exact QueueCall.contents_move hlacks

/-- **A run.** -/
theorem Served.run {s s' : QueueUsers} {moved : List Moved} (h : Served s)
    {events : List QueueEvent} (hrun : s.run events = some (s', moved)) :
    Served s' ∧ s.q.contents ++ came moved = went moved ++ s'.q.contents := by
  induction events generalizing s moved with
  | nil =>
    cases hrun
    exact ⟨h, List.append_nil _⟩
  | cons event events ih =>
    unfold QueueUsers.run at hrun
    rcases h.step event with ⟨-, hnone⟩ | ⟨-, s₁, moved₁, hs₁, hserved, hq₁⟩
    · rw [hnone] at hrun
      cases hrun
    · rw [hs₁] at hrun
      change (s₁.run events).bind (fun r => some (r.1, moved₁ ++ r.2)) = _ at hrun
      obtain ⟨⟨s₂, moved₂⟩, hs₂, heq⟩ := Option.bind_eq_some_iff.1 hrun
      cases heq
      obtain ⟨hserved₂, hq₂⟩ := ih hserved hs₂
      refine ⟨hserved₂, ?_⟩
      rw [came_append, went_append, ← List.append_assoc, hq₁, List.append_assoc, hq₂,
        List.append_assoc]

theorem served_intqInit (buf : Fin INTQ_BUFSIZE → UInt8) : Served (intqInit buf) where
  lock_iff t := iff_of_false (fun h => by cases h) not_false
  waiter_iff t cond := iff_of_false (fun h => by cases cond <;> cases h) fun ⟨_, h, _⟩ => by cases h
  lacks t call h := by cases h

/-- **Interrupt queues serve** threads and handlers in any order: the bytes that came are the ones
that went and the ones that are queued, in this order, of which there are 63 at most; a thread sleeps
in `wait` only while the queue lacks what it waits for; and an assertion fails only for a handler that
would have to wait, and for a thread that slept in `lock_acquire` and has nothing to wait for when it
gets the lock. -/
theorem intq_serves {buf : Fin INTQ_BUFSIZE → UInt8} {events : List QueueEvent} {s : QueueUsers}
    {moved : List Moved} (hrun : (intqInit buf).run events = some (s, moved)) :
    came moved = went moved ++ s.q.contents ∧ s.q.contents.length ≤ 63 ∧
      (∀ t call, s.stage t = .waiting call → s.q.Lacks call.awaits) ∧
      ∀ event, s.step event = none ↔ s.Asserts event := by
  obtain ⟨hserved, hq⟩ := (served_intqInit buf).run hrun
  refine ⟨?_, Nat.lt_succ_iff.1 s.q.length_contents_lt, hserved.lacks, fun event => ?_⟩
  · have hempty : (intqInit buf).q.contents = [] := RingBuffer.empty_iff.1 rfl
    rw [hempty] at hq
    exact hq
  · rcases hserved.step event with ⟨hfails, hnone⟩ | ⟨hnot, s', moved', hs', -⟩
    · exact iff_of_true hnone hfails
    · refine iff_of_false (fun hnone => ?_) hnot
      rw [hs'] at hnone
      cases hnone

/-- Two readers, and two bytes before the first of them runs again: the second one fails. -/
theorem intq_serves_readers :
    ∃ s moved, (intqInit fun _ => 0).run [.enter 1 .getc, .turn 1, .enter 2 .getc, .turn 2,
        .interrupt (.putc 5), .interrupt (.putc 6), .turn 1, .turn 1] = some (s, moved) ∧
      went moved = [5] ∧ s.q.contents = [6] ∧ s.step (.turn 2) = none :=
  ⟨_, _, rfl, rfl, by decide, ((@intq_serves (fun _ => 0) [.enter 1 .getc, .turn 1, .enter 2 .getc,
    .turn 2, .interrupt (.putc 5), .interrupt (.putc 6), .turn 1, .turn 1] _ _ rfl).2.2.2
      (.turn 2)).2 ⟨.getc, rfl, rfl, by decide⟩⟩

end Devices
end CS162

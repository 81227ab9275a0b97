/-
# Threads of a process and their joins

`projects1-3/src/userprog/process.c`, lines 884-1048 (`pthread_execute`,
`start_pthread`, `pthread_join`, `pthread_exit`, `pthread_exit_main`), with what
`start_process` and `process_exit` do to `thread_joins` and `thread_list`, and
`thread_switch_tail` in `thread.c`.

The threads of one process take steps in any order.  A semaphore operation, the
scan of `pthread_join` with its mark, and a list operation are one step each.
Threads go by their tids, which `allocate_tid` counts up, and a `join_elem` by its
address.  A `struct thread` whose page was freed may hold any tid.

`pthread_join` returns a tid once, after the thread's exit, and refuses what it has
to refuse (`pthreadJoin_exact`).
-/

import Mathlib.Data.List.Basic
import Mathlib.Data.List.Nodup
import Mathlib.Logic.Function.Basic
import CS162.Basis.Runs

namespace CS162
namespace Userprog

open CS162.Basis

/-- `struct join_elem`. -/
structure JoinElem where
  tid : ℕ
  joined : Bool
  /-- The value of the semaphore `join`. -/
  value : ℕ

/-- Where `pthread_join` is called from. -/
inductive JoinPoint where
  | user
  /-- The loop of `pthread_exit_main`, and its `list_remove`. -/
  | exitLoop
  | unlist
  /-- The loop of `process_exit`, at an entry. -/
  | processLoop (i : ℕ)
  deriving DecidableEq

/-- Where a thread is. -/
inductive Place where
  | unborn
  /-- In `pthread_execute`, in `sema_down (&exec.load_done)`. -/
  | executing (child : ℕ)
  /-- In `start_pthread`, before and after the list operations. -/
  | starting
  | settingUp (r : ℕ)
  | running (p : JoinPoint)
  /-- In `pthread_join (tid)`, in `sema_down (&curr->join)` and past it. -/
  | joining (r tid : ℕ) (p : JoinPoint)
  | joined (r tid : ℕ) (p : JoinPoint)
  /-- About to call `thread_exit`. -/
  | dying
  /-- Destroyed. -/
  | gone
  deriving DecidableEq

/-- The threads of a process. -/
structure Pthreads where
  main : ℕ
  nextTid : ℕ
  elems : ℕ → JoinElem
  /-- The address of the next `join_elem`. -/
  brk : ℕ
  threadJoins : List ℕ
  threadList : List ℕ
  place : ℕ → Place
  /-- History: the threads that have made their exit's `sema_up`, those that
  `setup_thread` failed for, the tids that a `pthread_join` waits or has waited for,
  those that one has returned, and those that it has refused. -/
  exited : List ℕ
  failed : List ℕ
  begun : List ℕ
  returned : List ℕ
  refused : List ℕ

/-- What `start_process` leaves. -/
def Pthreads.start (main : ℕ) : Pthreads where
  main := main
  nextTid := main + 1
  elems := fun _ => ⟨main, false, 0⟩
  brk := 1
  threadJoins := [0]
  threadList := [main]
  place := fun t => if t = main then .running .user else .unborn
  exited := []
  failed := []
  begun := []
  returned := []
  refused := []

namespace Pthreads

/-- The thread moves. -/
def goto (S : Pthreads) (t : ℕ) (p : Place) : Pthreads :=
  { S with place := Function.update S.place t p }

/-- Write to a `join_elem`. -/
def setElem (S : Pthreads) (r : ℕ) (f : JoinElem → JoinElem) : Pthreads :=
  { S with elems := Function.update S.elems r (f (S.elems r)) }

/-- The first `join_elem` of the list with the tid. -/
def find (S : Pthreads) (tid : ℕ) : Option ℕ := S.threadJoins.find? fun r => (S.elems r).tid = tid

/-- `thread_create` in `pthread_execute`. -/
def create (S : Pthreads) (t : ℕ) : Pthreads :=
  { (S.goto S.nextTid .starting).goto t (.executing S.nextTid) with nextTid := S.nextTid + 1 }

/-- The list operations of `start_pthread`. -/
def started (S : Pthreads) (t : ℕ) : Pthreads :=
  { S.setElem S.brk (fun _ => ⟨t, false, 0⟩) with
    brk := S.brk + 1
    threadJoins := S.threadJoins ++ [S.brk]
    threadList := S.threadList ++ [t] }

/-- `join_elem->joined = true` in `start_pthread`. -/
def fail (S : Pthreads) (t r : ℕ) : Pthreads :=
  { S.setElem r (fun j => { j with joined := true }) with failed := t :: S.failed }

/-- The scan of `pthread_join`, with its mark; `none` is `TID_ERROR`. -/
def pthreadJoin (S : Pthreads) (tid : ℕ) : Option (ℕ × Pthreads) :=
  match S.find tid with
  | none => none
  | some r =>
    if (S.elems r).joined then none
    else some (r, { S.setElem r (fun j => { j with joined := true }) with begun := tid :: S.begun })

/-- The `sema_up` of an exit. -/
def exitUp (S : Pthreads) (t : ℕ) : Pthreads :=
  { (match S.find t with
    | none => S
    | some r => S.setElem r fun j => { j with value := j.value + 1 }) with
    exited := t :: S.exited }

/-- What is read as the tid of an entry's thread. -/
def readsTid (S : Pthreads) (tid curr : ℕ) : Bool := S.place curr = .gone || tid = curr

/-- The call `pthread_join (tid)` can be made there. -/
def calls (S : Pthreads) (tid : ℕ) : JoinPoint → Bool
  | .user => true
  | .exitLoop => S.threadList.head?.any (S.readsTid tid)
  | .unlist => false
  | .processLoop i => S.threadList[i]?.any (S.readsTid tid)

end Pthreads

/-- A new thread has called `sema_up (&exec->load_done)`. -/
def Place.loaded : Place → Prop
  | .starting | .settingUp _ => False
  | _ => True

/-- The process is there, as long as its main thread is. -/
def Pthreads.Alive (S : Pthreads) : Prop := S.place S.main ≠ .gone

/-- Where `pthread_join` returns to. -/
def JoinPoint.next : JoinPoint → JoinPoint
  | .user => .user
  | .exitLoop => .unlist
  | .unlist => .unlist
  | .processLoop i => .processLoop (i + 1)

/-- The steps. -/
inductive ThreadAct where
  | create
  | executed
  | start
  | setUp (success : Bool)
  | join (tid : ℕ)
  | down
  | remove
  | unlist
  | exit
  | processExit
  | finish
  | threadExit

/-- A thread takes a step, while the process is there. -/
inductive PthreadStep (S : Pthreads) : ℕ × ThreadAct → Pthreads → Prop where
  | create {t : ℕ} : S.Alive → S.place t = .running .user → PthreadStep S (t, .create) (S.create t)
  | executed {t c : ℕ} : S.Alive → S.place t = .executing c → (S.place c).loaded →
      PthreadStep S (t, .executed) (S.goto t (.running .user))
  | start {t : ℕ} : S.Alive → S.place t = .starting →
      PthreadStep S (t, .start) ((S.started t).goto t (.settingUp S.brk))
  | setUp {t r : ℕ} : S.Alive → S.place t = .settingUp r →
      PthreadStep S (t, .setUp true) (S.goto t (.running .user))
  | setUpFailed {t r : ℕ} : S.Alive → S.place t = .settingUp r →
      PthreadStep S (t, .setUp false) ((S.fail t r).goto t .dying)
  | joinRefused {t : ℕ} {p : JoinPoint} (tid : ℕ) : S.Alive → S.place t = .running p →
      S.calls tid p → S.pthreadJoin tid = none →
      PthreadStep S (t, .join tid) ({ S with refused := tid :: S.refused }.goto t (.running p.next))
  | join {t r : ℕ} {p : JoinPoint} {S' : Pthreads} (tid : ℕ) : S.Alive → S.place t = .running p →
      S.calls tid p → S.pthreadJoin tid = some (r, S') →
      PthreadStep S (t, .join tid) (S'.goto t (.joining r tid p))
  | down {t r tid : ℕ} {p : JoinPoint} : S.Alive → S.place t = .joining r tid p →
      0 < (S.elems r).value → PthreadStep S (t, .down)
        ((S.setElem r fun j => { j with value := j.value - 1 }).goto t (.joined r tid p))
  | remove {t r tid : ℕ} {p : JoinPoint} : S.Alive → S.place t = .joined r tid p →
      PthreadStep S (t, .remove) ({ S with
        threadJoins := S.threadJoins.erase r
        returned := tid :: S.returned }.goto t (.running p.next))
  /-- Entries are pushed at the back alone, so the one that was joined is the first. -/
  | unlist {t : ℕ} : S.Alive → S.place t = .running .unlist →
      PthreadStep S (t, .unlist)
        ({ S with threadList := S.threadList.tail }.goto t (.running .exitLoop))
  | exit {t : ℕ} : S.Alive → S.place t = .running .user → t ≠ S.main →
      PthreadStep S (t, .exit) ((S.exitUp t).goto t .dying)
  | exitMain : S.Alive → S.place S.main = .running .user →
      PthreadStep S (S.main, .exit) ((S.exitUp S.main).goto S.main (.running .exitLoop))
  | processExit {t : ℕ} : S.Alive → S.place t = .running .exitLoop → S.threadList = [] →
      PthreadStep S (t, .processExit) ((S.exitUp t).goto t (.running (.processLoop 0)))
  | finish {t i : ℕ} : S.Alive → S.place t = .running (.processLoop i) → i = S.threadList.length →
      PthreadStep S (t, .finish) (S.goto t .gone)
  | threadExit {t : ℕ} : S.Alive → S.place t = .dying → PthreadStep S (t, .threadExit) (S.goto t .gone)

/-- The states that steps in any order lead to. -/
def PthreadReach (main : ℕ) (S : Pthreads) : Prop :=
  Leads PthreadStep (fun _ _ => True) (.start main) S

/-! ### What the steps keep -/

/-- The `join_elem` whose semaphore a thread waits for, or waited for, and the tid. -/
def Place.waits : Place → Option (ℕ × ℕ)
  | .joining r tid _ | .joined r tid _ => some (r, tid)
  | _ => none

/-- The thread has been put on the lists. -/
def Pthreads.Listed (S : Pthreads) (tid : ℕ) : Prop := ∃ r, r < S.brk ∧ (S.elems r).tid = tid

/-- What every step keeps. -/
structure JoinInv (S : Pthreads) : Prop where
  unborn : ∀ t, S.nextTid ≤ t → S.place t = .unborn
  born : ∀ {r}, r < S.brk →
    S.place (S.elems r).tid ≠ .unborn ∧ S.place (S.elems r).tid ≠ .starting
  tids : ∀ {r r'}, r < S.brk → r' < S.brk → (S.elems r).tid = (S.elems r').tid → r = r'
  listed : ∀ {r}, r ∈ S.threadJoins → r < S.brk
  nodup : S.threadJoins.Nodup
  kept : ∀ {r}, r < S.brk → (r ∈ S.threadJoins ↔ (S.elems r).tid ∉ S.returned)
  flag : ∀ {r}, r < S.brk →
    ((S.elems r).joined = true ↔ (S.elems r).tid ∈ S.begun ∨ (S.elems r).tid ∈ S.failed)
  value : ∀ {r}, r < S.brk → 0 < (S.elems r).value → (S.elems r).tid ∈ S.exited
  waits : ∀ {t r tid}, (S.place t).waits = some (r, tid) →
    r < S.brk ∧ (S.elems r).tid = tid ∧ tid ∈ S.begun ∧ tid ∉ S.returned
  one : ∀ {t t' r tid tid'}, (S.place t).waits = some (r, tid) →
    (S.place t').waits = some (r, tid') → t = t'
  past : ∀ {t r tid p}, S.place t = .joined r tid p → tid ∈ S.exited
  settingUp : ∀ {t r}, S.place t = .settingUp r → r < S.brk ∧ (S.elems r).tid = t
  marked : ∀ {tid}, tid ∈ S.begun ∨ tid ∈ S.failed → S.Listed tid
  once : S.returned.Nodup
  late : ∀ {tid}, tid ∈ S.returned → tid ∈ S.begun ∧ tid ∈ S.exited

variable {S S' : Pthreads} {t r tid : ℕ} {p : Place}

@[simp] theorem goto_place_self : (S.goto t p).place t = p := Function.update_self ..

@[simp] theorem goto_place_of_ne {u : ℕ} (h : u ≠ t) : (S.goto t p).place u = S.place u :=
  Function.update_of_ne h ..

/-- **A thread moves.** -/
theorem JoinInv.goto (hi : JoinInv S) (hold : S.place t ≠ .unborn)
    (hp : p ≠ .unborn ∧ p ≠ .starting)
    (hwaits : ∀ {r tid}, p.waits = some (r, tid) →
      r < S.brk ∧ (S.elems r).tid = tid ∧ tid ∈ S.begun ∧ tid ∉ S.returned)
    (hone : ∀ {u r tid tid'}, u ≠ t → p.waits = some (r, tid) →
      (S.place u).waits ≠ some (r, tid'))
    (hpast : ∀ {r tid q}, p = .joined r tid q → tid ∈ S.exited)
    (hsettingUp : ∀ {r}, p = .settingUp r → r < S.brk ∧ (S.elems r).tid = t) :
    JoinInv (S.goto t p) where
  unborn u hu := by
    have hne : u ≠ t := by
      rintro rfl
      exact hold (hi.unborn u hu)
    rw [goto_place_of_ne hne]
    exact hi.unborn u hu
  born {r} hr := by
    by_cases hu : (S.elems r).tid = t
    · change (S.goto t p).place (S.elems r).tid ≠ _ ∧ (S.goto t p).place (S.elems r).tid ≠ _
      rw [hu, goto_place_self]
      exact hp
    · change (S.goto t p).place (S.elems r).tid ≠ _ ∧ (S.goto t p).place (S.elems r).tid ≠ _
      rw [goto_place_of_ne hu]
      exact hi.born hr
  tids := hi.tids
  listed := hi.listed
  nodup := hi.nodup
  kept := hi.kept
  flag := hi.flag
  value := hi.value
  waits {u r tid} h := by
    by_cases hu : u = t
    · subst hu
      rw [goto_place_self] at h
      exact hwaits h
    · rw [goto_place_of_ne hu] at h
      exact hi.waits h
  one {u u' r tid tid'} h h' := by
    by_cases hu : u = t
    · by_cases hu' : u' = t
      · rw [hu, hu']
      · subst hu
        rw [goto_place_self] at h
        rw [goto_place_of_ne hu'] at h'
        exact absurd h' (hone hu' h)
    · rw [goto_place_of_ne hu] at h
      by_cases hu' : u' = t
      · subst hu'
        rw [goto_place_self] at h'
        exact absurd h (hone hu h')
      · rw [goto_place_of_ne hu'] at h'
        exact hi.one h h'
  past {u r tid q} h := by
    by_cases hu : u = t
    · subst hu
      rw [goto_place_self] at h
      exact hpast h
    · rw [goto_place_of_ne hu] at h
      exact hi.past h
  settingUp {u r} h := by
    by_cases hu : u = t
    · subst hu
      rw [goto_place_self] at h
      exact hsettingUp h
    · rw [goto_place_of_ne hu] at h
      exact hi.settingUp h
  marked := hi.marked
  once := hi.once
  late := hi.late

/-- A thread moves to a place where it waits for no other thread. -/
theorem JoinInv.goto_running (hi : JoinInv S) (hold : S.place t ≠ .unborn)
    (hp : p ≠ .unborn ∧ p ≠ .starting) (hwaits : p.waits = none)
    (hsettingUp : ∀ r, p ≠ .settingUp r) : JoinInv (S.goto t p) := by
  refine hi.goto hold hp (fun h => ?_) (fun _ h => ?_) (fun h => ?_) fun h => absurd h (hsettingUp _)
  · rw [hwaits] at h
    cases h
  · rw [hwaits] at h
    cases h
  · rw [h] at hwaits
    cases hwaits

/-- A write to a `join_elem` that leaves its tid. -/
theorem setElem_tid {f : JoinElem → JoinElem} (hf : ∀ j, (f j).tid = j.tid) (u : ℕ) :
    ((S.setElem r f).elems u).tid = (S.elems u).tid := by
  change (Function.update S.elems r (f (S.elems r)) u).tid = _
  by_cases hu : u = r
  · subst hu
    rw [Function.update_self, hf]
  · rw [Function.update_of_ne hu]

theorem setElem_elems_self {f : JoinElem → JoinElem} :
    (S.setElem r f).elems r = f (S.elems r) :=
  Function.update_self ..

theorem setElem_elems_of_ne {f : JoinElem → JoinElem} {u : ℕ} (h : u ≠ r) :
    (S.setElem r f).elems u = S.elems u :=
  Function.update_of_ne h ..

/-- **A write to a `join_elem`**, where flags and values are as they should be after it. -/
theorem JoinInv.setElem (hi : JoinInv S) {f : JoinElem → JoinElem} (hf : ∀ j, (f j).tid = j.tid)
    {exited failed begun : List ℕ} (hexited : ∀ {u}, u ∈ S.exited → u ∈ exited)
    (hbegun : ∀ {u}, u ∈ S.begun → u ∈ begun)
    (hflag : ∀ {u}, u < S.brk → (((S.setElem r f).elems u).joined = true ↔
      (S.elems u).tid ∈ begun ∨ (S.elems u).tid ∈ failed))
    (hvalue : ∀ {u}, u < S.brk → 0 < ((S.setElem r f).elems u).value → (S.elems u).tid ∈ exited)
    (hmarked : ∀ {u}, u ∈ begun ∨ u ∈ failed → S.Listed u) :
    JoinInv { S.setElem r f with exited := exited, failed := failed, begun := begun } where
  unborn := hi.unborn
  born hu := by
    dsimp only
    rw [setElem_tid hf]
    exact hi.born hu
  tids hu hu' h := by
    dsimp only at h
    rw [setElem_tid hf, setElem_tid hf] at h
    exact hi.tids hu hu' h
  listed := hi.listed
  nodup := hi.nodup
  kept hu := by
    dsimp only
    rw [setElem_tid hf]
    exact hi.kept hu
  flag hu := by
    dsimp only
    rw [setElem_tid hf]
    exact hflag hu
  value hu h := by
    dsimp only at h ⊢
    rw [setElem_tid hf]
    exact hvalue hu h
  waits h := by
    obtain ⟨hlt, htid, hbeg, hret⟩ := hi.waits h
    dsimp only
    rw [setElem_tid hf]
    exact ⟨hlt, htid, hbegun hbeg, hret⟩
  one := hi.one
  past h := hexited (hi.past h)
  settingUp h := by
    dsimp only
    rw [setElem_tid hf]
    exact hi.settingUp h
  marked h := by
    obtain ⟨u, hlt, htid⟩ := hmarked h
    exact ⟨u, hlt, (setElem_tid hf u).trans htid⟩
  once := hi.once
  late h := ⟨hbegun (hi.late h).1, hexited (hi.late h).2⟩

/-! ### The operations -/

theorem mem_of_find (h : S.find tid = some r) : r ∈ S.threadJoins ∧ (S.elems r).tid = tid :=
  ⟨List.mem_of_find?_eq_some h, by simpa using List.find?_some h⟩

theorem tid_ne_of_find (h : S.find tid = none) {u : ℕ} (hu : u ∈ S.threadJoins) :
    (S.elems u).tid ≠ tid := by
  simpa using List.find?_eq_none.1 h u hu

/-- **What is refused**: tids of no listed thread, or whose flag is set. -/
theorem JoinInv.pthreadJoin_none (hi : JoinInv S) :
    S.pthreadJoin tid = none ↔ ¬S.Listed tid ∨ tid ∈ S.begun ∨ tid ∈ S.failed := by
  unfold Pthreads.pthreadJoin
  cases hfind : S.find tid with
  | none =>
    refine iff_of_true rfl ?_
    by_cases hlisted : S.Listed tid
    · obtain ⟨r, hr, htid⟩ := hlisted
      have hreturned : (S.elems r).tid ∈ S.returned := by
        by_contra hnot
        exact tid_ne_of_find hfind ((hi.kept hr).2 hnot) htid
      exact .inr (.inl (htid ▸ (hi.late hreturned).1))
    · exact .inl hlisted
  | some r =>
    obtain ⟨hmem, htid⟩ := mem_of_find hfind
    have hr := hi.listed hmem
    have hflag := hi.flag hr
    rw [htid] at hflag
    dsimp only
    split_ifs with hjoined
    · exact iff_of_true rfl (.inr (hflag.1 hjoined))
    · refine iff_of_false nofun ?_
      rintro (hnot | hset)
      · exact hnot ⟨r, hr, htid⟩
      · exact hjoined (hflag.2 hset)

theorem JoinInv.exited (hi : JoinInv S) : JoinInv { S with exited := t :: S.exited } :=
  { hi with
    value := fun hr hv => List.mem_cons_of_mem _ (hi.value hr hv)
    past := fun h => List.mem_cons_of_mem _ (hi.past h)
    late := fun h => ⟨(hi.late h).1, List.mem_cons_of_mem _ (hi.late h).2⟩ }

@[simp] theorem exitUp_place : (S.exitUp t).place = S.place := by
  unfold Pthreads.exitUp
  cases S.find t <;> rfl

/-- The `sema_up` of an exit. -/
theorem JoinInv.exitUp (hi : JoinInv S) : JoinInv (S.exitUp t) := by
  unfold Pthreads.exitUp
  cases hfind : S.find t with
  | none => exact hi.exited
  | some r =>
    obtain ⟨hmem, htid⟩ := mem_of_find hfind
    refine hi.setElem (r := r) (f := fun j => { j with value := j.value + 1 }) (fun _ => rfl)
      (List.mem_cons_of_mem _) id (fun {u} hu => ?_)
      (fun {u} hu hv => ?_) hi.marked
    · by_cases hur : u = r
      · subst hur
        rw [setElem_elems_self]
        exact hi.flag hu
      · rw [setElem_elems_of_ne hur]
        exact hi.flag hu
    · by_cases hur : u = r
      · subst hur
        rw [htid]
        exact List.mem_cons_self
      · rw [setElem_elems_of_ne hur] at hv
        exact List.mem_cons_of_mem _ (hi.value hu hv)

/-- The flag of a `join_elem` is set, and why is noted. -/
theorem JoinInv.mark (hi : JoinInv S) (hr : r < S.brk) {failed begun : List ℕ}
    (hbegun : ∀ {u}, u ∈ S.begun → u ∈ begun)
    (hnoted : ∀ {u}, u ∈ begun ∨ u ∈ failed ↔ u = (S.elems r).tid ∨ u ∈ S.begun ∨ u ∈ S.failed) :
    JoinInv { S.setElem r (fun j => { j with joined := true }) with
      failed := failed, begun := begun } := by
  refine hi.setElem (r := r) (f := fun j => { j with joined := true }) (fun _ => rfl) id hbegun
    (fun {u} hu => ?_) (fun {u} hu hv => ?_) fun {u} hu => ?_
  · rw [hnoted]
    by_cases hur : u = r
    · subst hur
      rw [setElem_elems_self]
      exact iff_of_true rfl (.inl rfl)
    · rw [setElem_elems_of_ne hur, hi.flag hu]
      exact (or_iff_right fun h => hur (hi.tids hu hr h)).symm
  · by_cases hur : u = r
    · subst hur
      rw [setElem_elems_self] at hv
      exact hi.value hu hv
    · rw [setElem_elems_of_ne hur] at hv
      exact hi.value hu hv
  · rcases hnoted.1 hu with rfl | h
    · exact ⟨r, hr, rfl⟩
    · exact hi.marked h

/-- `setup_thread` failed. -/
theorem JoinInv.fail (hi : JoinInv S) (hr : r < S.brk) (htid : (S.elems r).tid = t) :
    JoinInv (S.fail t r) := by
  refine hi.mark hr id fun {u} => ?_
  rw [List.mem_cons, htid]
  tauto

/-- `sema_down` of a `join_elem`. -/
theorem JoinInv.down (hi : JoinInv S) :
    JoinInv (S.setElem r fun j => { j with value := j.value - 1 }) := by
  refine hi.setElem (r := r) (f := fun j => { j with value := j.value - 1 }) (fun _ => rfl) id id
    (fun {u} hu => ?_) (fun {u} hu hv => ?_) hi.marked
  · by_cases hur : u = r
    · subst hur
      rw [setElem_elems_self]
      exact hi.flag hu
    · rw [setElem_elems_of_ne hur]
      exact hi.flag hu
  · by_cases hur : u = r
    · subst hur
      rw [setElem_elems_self] at hv
      exact hi.value hu (Nat.lt_of_lt_of_le hv (Nat.sub_le ..))
    · rw [setElem_elems_of_ne hur] at hv
      exact hi.value hu hv

theorem started_elems_self : (S.started t).elems S.brk = ⟨t, false, 0⟩ := Function.update_self ..

/-- The list operations of `start_pthread`. -/
theorem JoinInv.started (hi : JoinInv S)
    (hplace : S.place t ≠ .unborn ∧ S.place t ≠ .starting) (hnew : ¬S.Listed t) :
    JoinInv (S.started t) := by
  have hself := started_elems_self (S := S) (t := t)
  have hother : ∀ {u}, u < S.brk → (S.started t).elems u = S.elems u := fun hu =>
    Function.update_of_ne (Nat.ne_of_lt hu) ..
  have hcases : ∀ {u}, u < (S.started t).brk → u < S.brk ∨ u = S.brk := fun {u} hu =>
    Nat.lt_or_eq_of_le (Nat.le_of_lt_succ hu)
  have hlt : ∀ {u}, u < S.brk → u < (S.started t).brk := fun hu => Nat.lt_succ_of_lt hu
  refine { hi with born := fun {u} hu => ?_, tids := fun {u u'} hu hu' h => ?_, listed := ?_,
                   nodup := ?_, kept := fun {u} hu => ?_, flag := fun {u} hu => ?_,
                   value := fun {u} hu hv => ?_, waits := fun {v u w} h => ?_,
                   settingUp := fun {v u} h => ?_, marked := fun {w} h => ?_ }
  · rcases hcases hu with hu | rfl
    · rw [hother hu]
      exact hi.born hu
    · rw [hself]
      exact hplace
  · rcases hcases hu with hu | rfl
    · rcases hcases hu' with hu' | rfl
      · rw [hother hu, hother hu'] at h
        exact hi.tids hu hu' h
      · rw [hother hu, hself] at h
        exact absurd ⟨u, hu, h⟩ hnew
    · rcases hcases hu' with hu' | rfl
      · rw [hother hu', hself] at h
        exact absurd ⟨u', hu', h.symm⟩ hnew
      · rfl
  · intro u hu
    rcases List.mem_append.1 hu with hu | hu
    · exact hlt (hi.listed hu)
    · rw [List.mem_singleton.1 hu]
      exact Nat.lt_succ_self _
  · refine List.nodup_append.2 ⟨hi.nodup, List.nodup_singleton S.brk, fun u hu v hv => ?_⟩
    rw [List.mem_singleton.1 hv]
    exact Nat.ne_of_lt (hi.listed hu)
  · rcases hcases hu with hu | rfl
    · rw [hother hu]
      refine Iff.trans ?_ (hi.kept hu)
      change u ∈ S.threadJoins ++ [S.brk] ↔ _
      rw [List.mem_append, List.mem_singleton]
      exact or_iff_left (Nat.ne_of_lt hu)
    · rw [hself]
      refine iff_of_true (List.mem_append_right _ List.mem_cons_self) fun h => ?_
      exact hnew (hi.marked (.inl (hi.late h).1))
  · rcases hcases hu with hu | rfl
    · rw [hother hu]
      exact hi.flag hu
    · rw [hself]
      exact iff_of_false nofun fun h => hnew (hi.marked h)
  · rcases hcases hu with hu | rfl
    · rw [hother hu] at hv ⊢
      exact hi.value hu hv
    · rw [hself] at hv
      cases hv
  · obtain ⟨hu, htid, hbegun, hreturned⟩ := hi.waits h
    rw [hother hu]
    exact ⟨hlt hu, htid, hbegun, hreturned⟩
  · obtain ⟨hu, htid⟩ := hi.settingUp h
    rw [hother hu]
    exact ⟨hlt hu, htid⟩
  · obtain ⟨u, hu, htid⟩ := hi.marked h
    exact ⟨u, hlt hu, (congrArg JoinElem.tid (hother hu)).trans htid⟩

/-- `allocate_tid`. -/
theorem JoinInv.created (hi : JoinInv S) :
    JoinInv { S.goto S.nextTid .starting with nextTid := S.nextTid + 1 } := by
  have hunborn := hi.unborn _ (Nat.le_refl S.nextTid)
  have hne : ∀ {u}, S.place u ≠ .unborn → u ≠ S.nextTid := by
    rintro u hu rfl
    exact hu hunborn
  refine { hi with unborn := fun u hu => ?_, born := fun {u} hu => ?_, waits := fun {u _ _} h => ?_,
                   one := fun {u u' _ _ _} h h' => ?_, past := fun {u _ _ _} h => ?_,
                   settingUp := fun {u _} h => ?_ }
  · have hlt : S.nextTid + 1 ≤ u := hu
    exact (goto_place_of_ne (by omega)).trans (hi.unborn u (by omega))
  · exact (goto_place_of_ne (hne (hi.born hu).1)).symm ▸ hi.born hu
  · dsimp only at h
    by_cases hu : u = S.nextTid
    · rw [hu, goto_place_self] at h
      cases h
    · rw [goto_place_of_ne hu] at h
      exact hi.waits h
  · dsimp only at h h'
    by_cases hu : u = S.nextTid
    · rw [hu, goto_place_self] at h
      cases h
    · by_cases hu' : u' = S.nextTid
      · rw [hu', goto_place_self] at h'
        cases h'
      · rw [goto_place_of_ne hu] at h
        rw [goto_place_of_ne hu'] at h'
        exact hi.one h h'
  · dsimp only at h
    by_cases hu : u = S.nextTid
    · rw [hu, goto_place_self] at h
      cases h
    · rw [goto_place_of_ne hu] at h
      exact hi.past h
  · dsimp only at h
    by_cases hu : u = S.nextTid
    · rw [hu, goto_place_self] at h
      cases h
    · rw [goto_place_of_ne hu] at h
      exact hi.settingUp h

/-- `list_remove` of the `join_elem` of a thread that has exited, where `pthread_join` returns. -/
theorem JoinInv.removed (hi : JoinInv S) (hr : r < S.brk) (htid : (S.elems r).tid = tid)
    (hwaits : ∀ u v, (S.place u).waits ≠ some (r, v)) (hbegun : tid ∈ S.begun)
    (hreturned : tid ∉ S.returned) (hexited : tid ∈ S.exited) :
    JoinInv { S with threadJoins := S.threadJoins.erase r, returned := tid :: S.returned } := by
  refine { hi with listed := fun hu => hi.listed (List.mem_of_mem_erase hu), nodup := hi.nodup.erase r,
                   kept := fun {u} hu => ?_, waits := fun {v u w} h => ?_,
                   once := List.nodup_cons.2 ⟨hreturned, hi.once⟩, late := fun {u} hu => ?_ }
  · dsimp only
    rw [hi.nodup.mem_erase_iff, hi.kept hu, List.mem_cons, not_or, ← htid]
    exact and_congr_left fun _ => not_congr ⟨fun h => h ▸ rfl, hi.tids hu hr⟩
  · obtain ⟨hu, htidu, hbeg, hret⟩ := hi.waits h
    refine ⟨hu, htidu, hbeg, fun hmem => ?_⟩
    rcases List.mem_cons.1 hmem with rfl | hmem
    · have hur := hi.tids hu hr (htidu.trans htid.symm)
      exact hwaits v _ (hur ▸ h)
    · exact hret hmem
  · rcases List.mem_cons.1 hu with rfl | hu
    · exact ⟨hbegun, hexited⟩
    · exact hi.late hu

/-! ### One step -/

/-- Fields that joins do not look at. -/
theorem JoinInv.lists (hi : JoinInv S) {threadList refused : List ℕ} :
    JoinInv { S with threadList := threadList, refused := refused } :=
  { hi with }

theorem goto_goto {q : Place} : (S.goto t p).goto t q = S.goto t q := by
  unfold Pthreads.goto
  dsimp only
  rw [Function.update_idem]

/-- A thread goes on after `pthread_join`, or moves in the code. -/
theorem JoinInv.goOn (hi : JoinInv S) (hold : S.place t ≠ .unborn) (q : JoinPoint) :
    JoinInv (S.goto t (.running q)) :=
  hi.goto_running hold ⟨nofun, nofun⟩ rfl nofun

theorem create_inv (hi : JoinInv S) (hplace : S.place t ≠ .unborn) : JoinInv (S.create t) := by
  refine hi.created.goto_running (t := t) (p := .executing S.nextTid) ?_ ⟨nofun, nofun⟩ rfl nofun
  have hne : t ≠ S.nextTid := by
    rintro rfl
    exact hplace (hi.unborn _ (Nat.le_refl _))
  exact (goto_place_of_ne hne).trans_ne hplace

/-- A thread that starts keeps the invariant. -/
theorem start_inv (hi : JoinInv S) (hplace : S.place t = .starting) :
    JoinInv ((S.started t).goto t (.settingUp S.brk)) := by
  have hnew : ¬S.Listed t := by
    rintro ⟨r, hr, rfl⟩
    exact (hi.born hr).2 hplace
  have hmoved := hi.goOn (hplace ▸ nofun : S.place t ≠ .unborn) .user
  have hlisted := hmoved.started (t := t) (by rw [goto_place_self]; exact ⟨nofun, nofun⟩) hnew
  have hdone := hlisted.goto (t := t) (p := .settingUp S.brk) ?_ ⟨nofun, nofun⟩ nofun nofun nofun ?_
  · change JoinInv (((S.started t).goto t (.running .user)).goto t (.settingUp S.brk)) at hdone
    rw [goto_goto] at hdone
    exact hdone
  · change (S.goto t (.running .user)).place t ≠ _
    rw [goto_place_self]
    exact nofun
  · intro r hr
    cases hr
    exact ⟨Nat.lt_succ_self _, congrArg JoinElem.tid (started_elems_self (S := S.goto t _))⟩

theorem fail_inv (hi : JoinInv S) (hplace : S.place t = .settingUp r) :
    JoinInv ((S.fail t r).goto t .dying) := by
  obtain ⟨hr, htid⟩ := hi.settingUp hplace
  refine (hi.fail hr htid).goto_running (t := t) ?_ ⟨nofun, nofun⟩ rfl nofun
  exact hplace ▸ nofun

/-- **A join that waits.** -/
theorem join_inv (hi : JoinInv S) {q : JoinPoint} (hplace : S.place t = .running q)
    (hjoin : S.pthreadJoin tid = some (r, S')) : JoinInv (S'.goto t (.joining r tid q)) := by
  have hnot : ¬(¬S.Listed tid ∨ tid ∈ S.begun ∨ tid ∈ S.failed) := by
    rw [← hi.pthreadJoin_none, hjoin]
    exact nofun
  unfold Pthreads.pthreadJoin at hjoin
  cases hfind : S.find tid with
  | none =>
    rw [hfind] at hjoin
    cases hjoin
  | some u =>
    obtain ⟨hmem, htid⟩ := mem_of_find hfind
    have hu := hi.listed hmem
    rw [hfind] at hjoin
    dsimp only at hjoin
    split_ifs at hjoin with hjoined
    cases hjoin
    have hnoted : ∀ {u}, u ∈ tid :: S.begun ∨ u ∈ S.failed ↔
        u = (S.elems r).tid ∨ u ∈ S.begun ∨ u ∈ S.failed := by
      intro u
      rw [htid, List.mem_cons, or_assoc]
    have hmark := hi.mark hu (List.mem_cons_of_mem _) hnoted
    refine hmark.goto (t := t) (hplace ▸ nofun : S.place t ≠ .unborn) ⟨nofun, nofun⟩ ?_ ?_ nofun nofun
    · rintro r' tid' h
      cases h
      refine ⟨hu, ?_, List.mem_cons_self, fun hret => hnot (.inr (.inl (hi.late hret).1))⟩
      exact (setElem_tid (r := r) (f := fun j => { j with joined := true }) (fun _ => rfl) r).trans htid
    · rintro v r' tid' w - h hv
      cases h
      obtain ⟨-, htidv, hbegun, -⟩ := hi.waits hv
      exact hnot (.inr (.inl (htid.symm.trans htidv ▸ hbegun)))

/-- **The wait ends.** -/
theorem down_inv (hi : JoinInv S) {q : JoinPoint} (hplace : S.place t = .joining r tid q)
    (hvalue : 0 < (S.elems r).value) :
    JoinInv ((S.setElem r fun j => { j with value := j.value - 1 }).goto t (.joined r tid q)) := by
  have hwaits : (S.place t).waits = some (r, tid) := by
    rw [hplace]
    rfl
  obtain ⟨hr, htid, hbegun, hreturned⟩ := hi.waits hwaits
  refine hi.down.goto (t := t) (hplace ▸ nofun : S.place t ≠ .unborn) ⟨nofun, nofun⟩ ?_ ?_ ?_ nofun
  · rintro r' tid' h
    cases h
    refine ⟨hr, ?_, hbegun, hreturned⟩
    exact (setElem_tid (r := r) (f := fun j => { j with value := j.value - 1 }) (fun _ => rfl) r).trans
      htid
  · rintro u r' tid' w hne h hu
    cases h
    exact hne (hi.one hu hwaits)
  · rintro r' tid' q' h
    cases h
    exact htid ▸ hi.value hr hvalue

/-- **The join returns.** -/
theorem remove_inv (hi : JoinInv S) {q q' : JoinPoint} (hplace : S.place t = .joined r tid q) :
    JoinInv ({ S with
      threadJoins := S.threadJoins.erase r
      returned := tid :: S.returned }.goto t (.running q')) := by
  have hwaits : (S.place t).waits = some (r, tid) := by
    rw [hplace]
    rfl
  obtain ⟨hr, htid, hbegun, hreturned⟩ := hi.waits hwaits
  have hmoved := hi.goOn (hplace ▸ nofun : S.place t ≠ .unborn) q'
  refine hmoved.removed hr htid (fun u v h => ?_) hbegun hreturned (hi.past hplace)
  by_cases hu : u = t
  · rw [hu, goto_place_self] at h
    cases h
  · rw [goto_place_of_ne hu] at h
    exact hu (hi.one h hwaits)

/-- **One step.** -/
theorem JoinInv.step {i : ℕ × ThreadAct} (hi : JoinInv S) (h : PthreadStep S i S') : JoinInv S' := by
  cases h with
  | create _ hplace => exact create_inv hi (hplace ▸ nofun)
  | executed _ hplace _ => exact hi.goOn (hplace ▸ nofun) _
  | start _ hplace => exact start_inv hi hplace
  | setUp _ hplace => exact hi.goOn (hplace ▸ nofun) _
  | setUpFailed _ hplace => exact fail_inv hi hplace
  | joinRefused tid _ hplace _ _ => exact hi.lists.goOn (hplace ▸ nofun) _
  | join tid _ hplace _ hjoin => exact join_inv hi hplace hjoin
  | down _ hplace hvalue => exact down_inv hi hplace hvalue
  | remove _ hplace => exact remove_inv hi hplace
  | unlist _ hplace => exact hi.lists.goOn (hplace ▸ nofun) _
  | exit _ hplace _ =>
    refine hi.exitUp.goto_running ?_ ⟨nofun, nofun⟩ rfl nofun
    rw [exitUp_place, hplace]
    exact nofun
  | exitMain _ hplace =>
    refine hi.exitUp.goOn ?_ _
    rw [exitUp_place, hplace]
    exact nofun
  | processExit _ hplace _ =>
    refine hi.exitUp.goOn ?_ _
    rw [exitUp_place, hplace]
    exact nofun
  | finish _ hplace _ => exact hi.goto_running (hplace ▸ nofun) ⟨nofun, nofun⟩ rfl nofun
  | threadExit _ hplace => exact hi.goto_running (hplace ▸ nofun) ⟨nofun, nofun⟩ rfl nofun

/-- The invariant holds of a process that starts. -/
theorem joinInv_start (main : ℕ) : JoinInv (.start main) where
  unborn t ht := by
    have hlt : main + 1 ≤ t := ht
    exact if_neg (by omega)
  born _ := by simp [Pthreads.start]
  tids {r r'} hr hr' _ := by
    have hr : r < 1 := hr
    have hr' : r' < 1 := hr'
    omega
  listed hr := by
    rw [List.mem_singleton.1 hr]
    exact Nat.zero_lt_one
  nodup := List.nodup_singleton 0
  kept {r} hr := by
    have hr : r < 1 := hr
    exact iff_of_true (List.mem_singleton.2 (by omega)) List.not_mem_nil
  flag _ := iff_of_false nofun (by simp [Pthreads.start])
  value _ h := absurd h (Nat.lt_irrefl 0)
  waits {t r tid} h := by
    dsimp only [Pthreads.start] at h
    split_ifs at h
    · cases h
    · cases h
  one {t t' r tid tid'} h := by
    dsimp only [Pthreads.start] at h
    split_ifs at h
    · cases h
    · cases h
  past {t r tid p} h := by
    dsimp only [Pthreads.start] at h
    split_ifs at h
  settingUp {t r} h := by
    dsimp only [Pthreads.start] at h
    split_ifs at h
  marked h := absurd h (by simp [Pthreads.start])
  once := List.nodup_nil
  late h := absurd h (by simp [Pthreads.start])

/-- What is to hold of joins. -/
structure JoinsExact (S : Pthreads) : Prop where
  /-- A tid is returned once, after its thread's `sema_up`. -/
  once : S.returned.Nodup
  late : ∀ tid ∈ S.returned, tid ∈ S.exited
  /-- A `join_elem` is on the list until its thread has been joined. -/
  kept : ∀ r < S.brk, (S.elems r).tid ∉ S.returned → r ∈ S.threadJoins
  /-- Refused without waiting are the tids of no listed thread, those that a join has
  been started for, and those of threads that could not be set up. -/
  refused : ∀ tid, S.pthreadJoin tid = none ↔ ¬S.Listed tid ∨ tid ∈ S.begun ∨ tid ∈ S.failed

theorem PthreadReach.inv {main : ℕ} (h : PthreadReach main S) : JoinInv S :=
  Leads.inv h (fun hi _ hstep => JoinInv.step hi hstep) (joinInv_start main)

/-- **Joins are exact.** -/
theorem pthreadJoin_exact {main : ℕ} (h : PthreadReach main S) : JoinsExact S := by
  have hi := h.inv
  exact ⟨hi.once, fun tid ht => (hi.late ht).2, fun r hr hret => (hi.kept hr).2 hret,
    fun tid => hi.pthreadJoin_none⟩

theorem PthreadReach.step {main : ℕ} {i : ℕ × ThreadAct} (h : PthreadReach main S)
    (hstep : PthreadStep S i S') : PthreadReach main S' :=
  h.tail ⟨i, trivial, hstep⟩

/-- The main thread starts a thread and joins it. -/
theorem pthreadJoin_exact_joined : ∃ S, S.returned = [2] ∧ JoinsExact S := by
  have hstart : PthreadReach 1 (.start 1) := .refl
  have hcreate := hstart.step (.create (t := 1) nofun rfl)
  have hchild := (hcreate.step (.start (t := 2) nofun rfl)).step (.setUp (t := 2) (r := 1) nofun rfl)
  have hjoin := (hchild.step (.executed (t := 1) (c := 2) nofun rfl trivial)).step
    (.join (t := 1) (r := 1) (p := .user) 2 nofun rfl rfl rfl)
  have hexit := hjoin.step (.exit (t := 2) nofun rfl nofun)
  have hdown := hexit.step (@PthreadStep.down _ 1 1 2 .user nofun rfl (by decide))
  have hremove := hdown.step (@PthreadStep.remove _ 1 1 2 .user nofun rfl)
  exact ⟨_, rfl, pthreadJoin_exact hremove⟩

end Userprog
end CS162

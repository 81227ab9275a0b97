/-
# Locks and semaphores of user programs

`projects1-3/src/userprog/syscall.c`, lines 512-596, with the fields `user_locks`,
`user_semas`, `next_lock` and `next_sema` of `struct process`.

A handle is one byte of user memory, a `char`, which is signed.  What `start_process`
leaves in the fields is arbitrary, as the block comes from `malloc`.  Primitives are
found by their addresses; `brk` is the next that `malloc` gives out and `memory`
answers its requests to come.

A call is one step up to where it waits, and `lockAcquired` and `semaDowned` are what
follows when it has waited.  An index outside the arrays does not return.
`syncRun_safe` says in which runs every call is answered as it should be.
-/

import Mathlib.Logic.Function.Basic
import CS162.Basis.Program
import CS162.Basis.Runs

namespace CS162
namespace Userprog

open CS162.Basis

/-- One of the two arrays with its counter. -/
structure HandleTable where
  /-- `next_lock` or `next_sema`. -/
  next : UInt32
  /-- `user_locks` or `user_semas`. -/
  slots : ℕ → Option ℕ
  /-- History: the handles that were returned, and what they were returned for. -/
  handles : ℕ → Option ℕ

/-- Slot `i` points to `p`, and handle `i` is returned for it. -/
def HandleTable.add (T : HandleTable) (i p : ℕ) : HandleTable :=
  { T with
    slots := Function.update T.slots i (some p)
    handles := Function.update T.handles i (some p) }

/-- What a thread waits for. -/
inductive WaitsFor where
  | lock (p : ℕ)
  | sema (p : ℕ)
  deriving DecidableEq

/-- What the calls of one process work on. -/
structure UserSync where
  lockTable : HandleTable
  semaTable : HandleTable
  /-- The locks in memory, with their holders. -/
  locks : ℕ → Option (Option ℕ)
  /-- The semaphores in memory, with their values. -/
  semas : ℕ → Option ℕ
  brk : ℕ
  memory : ℕ → Bool
  waits : ℕ → Option WaitsFor
  /-- History: the primitives that were used. -/
  touched : List ℕ

abbrev OnSync := Prog UserSync

/-- How a step of a call ends: an init leaves the handle in the user's variable. -/
inductive Answer where
  | handle (l : UInt8) (ok : Bool)
  | returned (ok : Bool)
  | waiting
  deriving DecidableEq

/-- `malloc`. -/
def mallocBlock : OnSync (Option ℕ) := do
  let S ← get
  if S.memory 0 then
    set { S with memory := fun n => S.memory (n + 1), brk := S.brk + 1 }
    return some S.brk
  else
    set { S with memory := fun n => S.memory (n + 1) }
    return none

/-- An index into one of the arrays, from a `char`. -/
def charIndex (l : UInt8) : OnSync ℕ := if l < 128 then return l.toNat else halt

/-- `lock_held_by_current_thread`. -/
def lockHeld (p t : ℕ) : OnSync Bool := do
  modify fun S => { S with touched := S.touched ++ [p] }
  let S ← get
  match S.locks p with
  | none => halt
  | some holder => return holder = some t

/-- `sys_lock_init`. -/
def sysLockInit : OnSync Answer := do
  let S ← get
  let l := S.lockTable.next.toUInt8
  set { S with lockTable := { S.lockTable with next := S.lockTable.next + 1 } }
  let block ← mallocBlock
  match block with
  | none => return .handle l false
  | some p =>
    modify fun S => { S with locks := Function.update S.locks p (some none) }
    let i ← charIndex l
    modify fun S => { S with lockTable := S.lockTable.add i p }
    return .handle l true

/-- `sys_lock_acquire`, up to `lock_acquire`. -/
def sysLockAcquire (t : ℕ) (l : UInt8) : OnSync Answer := do
  let i ← charIndex l
  let S ← get
  match S.lockTable.slots i with
  | none => return .returned false
  | some p =>
    let held ← lockHeld p t
    if held = false then
      modify fun S => { S with waits := Function.update S.waits t (some (.lock p)) }
      return .waiting
    else return .returned false

/-- `sys_lock_acquire`, when the lock is free: `*l` is read again. -/
def lockAcquired (t : ℕ) (l : UInt8) : OnSync Answer := do
  let S ← get
  match S.waits t with
  | some (.lock p) =>
    set { S with
      locks := Function.update S.locks p (some (some t))
      waits := Function.update S.waits t none }
    let i ← charIndex l
    modify fun S => { S with lockTable := { S.lockTable with
      slots := Function.update S.lockTable.slots i (some p) } }
    return .returned true
  | _ => halt

/-- `sys_lock_release`. -/
def sysLockRelease (t : ℕ) (l : UInt8) : OnSync Answer := do
  let i ← charIndex l
  let S ← get
  match S.lockTable.slots i with
  | none => return .returned false
  | some p =>
    let held ← lockHeld p t
    if held then
      modify fun S => { S with locks := Function.update S.locks p (some none) }
      return .returned true
    else return .returned false

/-- `sys_sema_init`. -/
def sysSemaInit (val : ℕ) : OnSync Answer := do
  let S ← get
  let l := S.semaTable.next.toUInt8
  set { S with semaTable := { S.semaTable with next := S.semaTable.next + 1 } }
  let block ← mallocBlock
  match block with
  | none => return .handle l false
  | some p =>
    modify fun S => { S with semas := Function.update S.semas p (some val) }
    let i ← charIndex l
    modify fun S => { S with semaTable := S.semaTable.add i p }
    return .handle l true

/-- `sys_sema_down`, up to `sema_down`. -/
def sysSemaDown (t : ℕ) (sema : Option UInt8) : OnSync Answer := do
  match sema with
  | none => return .returned false
  | some l =>
    -- no `char` reaches 256
    if 128 ≤ l then return .returned false
    else
      let i ← charIndex l
      let S ← get
      match S.semaTable.slots i with
      | none => return .returned false
      | some p =>
        set { S with touched := S.touched ++ [p] }
        match S.semas p with
        | none => halt
        | some _ =>
          modify fun S => { S with waits := Function.update S.waits t (some (.sema p)) }
          return .waiting

/-- `sys_sema_down`, when the value is positive. -/
def semaDowned (t : ℕ) : OnSync Answer := do
  let S ← get
  match S.waits t with
  | some (.sema p) =>
    match S.semas p with
    | some (v + 1) =>
      set { S with
        semas := Function.update S.semas p (some v)
        waits := Function.update S.waits t none }
      return .returned true
    | _ => halt
  | _ => halt

/-- `sys_sema_up`: the array is read before the handle is looked at. -/
def sysSemaUp (l : UInt8) : OnSync Answer := do
  let i ← charIndex l
  let S ← get
  if 128 ≤ l then return .returned false
  else
    match S.semaTable.slots i with
    | none => return .returned false
    | some p =>
      set { S with touched := S.touched ++ [p] }
      match S.semas p with
      | none => halt
      | some v =>
        modify fun S => { S with semas := Function.update S.semas p (some (v + 1)) }
        return .returned true

/-- The steps of the calls.  The bytes are those of the user's variables. -/
inductive SyncCall where
  | lockInit
  | lockAcquire (l : UInt8)
  | lockAcquired (l : UInt8)
  | lockRelease (l : UInt8)
  | semaInit (val : ℕ)
  | semaDown (sema : Option UInt8)
  | semaDowned
  | semaUp (l : UInt8)

def SyncCall.perform (t : ℕ) : SyncCall → OnSync Answer
  | lockInit => sysLockInit
  | lockAcquire l => sysLockAcquire t l
  | lockAcquired l => Userprog.lockAcquired t l
  | lockRelease l => sysLockRelease t l
  | semaInit val => sysSemaInit val
  | semaDown sema => sysSemaDown t sema
  | semaDowned => Userprog.semaDowned t
  | semaUp l => sysSemaUp l

/-- The step can be thread `t`'s next. -/
def SyncCall.Enabled (S : UserSync) (t : ℕ) : SyncCall → Prop
  | lockAcquired _ => ∃ p, S.waits t = some (.lock p) ∧ S.locks p = some none
  | semaDowned => ∃ p v, S.waits t = some (.sema p) ∧ S.semas p = some (v + 1)
  | _ => S.waits t = none

/-! ### How calls are to be answered -/

/-- No primitive lies at the address. -/
def UserSync.Unused (S : UserSync) (p : ℕ) : Prop := S.locks p = none ∧ S.semas p = none

/-- Earlier handles denote theirs, and new ones denote fresh primitives. -/
structure Extends (S : UserSync) (T T' : HandleTable) : Prop where
  kept : ∀ {h p}, T.handles h = some p → T'.handles h = some p
  denotes : ∀ {h p}, T'.handles h = some p → T'.slots h = some p
  fresh : ∀ {h p}, T'.handles h = some p → T.handles h = some p ∨ S.Unused p

/-- The table that a step works on. -/
def SyncCall.table (S : UserSync) : SyncCall → HandleTable
  | lockInit | lockAcquire _ | lockAcquired _ | lockRelease _ => S.lockTable
  | semaInit _ | semaDown _ | semaDowned | semaUp _ => S.semaTable

/-- The handle that a call is given. -/
def SyncCall.handle : SyncCall → Option UInt8
  | lockAcquire l | lockRelease l | semaUp l => some l
  | semaDown sema => sema
  | _ => none

/-- The step is answered as it should be. -/
structure Answered (S : UserSync) (c : SyncCall) (a : Answer) (S' : UserSync) : Prop where
  locks : Extends S S.lockTable S'.lockTable
  semas : Extends S S.semaTable S'.semaTable
  /-- A successful init yields a new handle of a fresh primitive. -/
  init : ∀ l, a = .handle l true → (c.table S).handles l.toNat = none ∧
    ∃ p, S.Unused p ∧ (c.table S').handles l.toNat = some p
  /-- A handle that no init has returned is refused. -/
  refused : ∀ l, c.handle = some l → (c.table S).handles l.toNat = none →
    a = .returned false ∧ S'.touched = S.touched

/-- The step returns, so that all indices are in range, and is answered. -/
def StepSafe (S : UserSync) (t : ℕ) (c : SyncCall) : Prop :=
  Returns (c.perform t) S (Answered S c)

/-! ### Which calls are -/

/-- The handle is not negative and not taken. -/
def HandleTable.Free (T : HandleTable) (l : UInt8) : Prop := l < 128 ∧ T.handles l.toNat = none

/-- If no init has returned the handle, its slot is null. -/
def HandleTable.Clear (T : HandleTable) (l : UInt8) : Prop :=
  T.handles l.toNat = none → T.slots l.toNat = none

/-- The condition on a step. -/
def SyncCall.Meets (S : UserSync) (t : ℕ) : SyncCall → Prop
  | lockInit => S.memory 0 = true → S.lockTable.Free S.lockTable.next.toUInt8
  | lockAcquire l | lockRelease l => l < 128 ∧ S.lockTable.Clear l
  | lockAcquired l => l < 128 ∧ ∀ q, S.lockTable.handles l.toNat = some q →
      S.waits t = some (.lock q)
  | semaInit _ => S.memory 0 = true → S.semaTable.Free S.semaTable.next.toUInt8
  | semaDown sema => ∀ l, sema = some l → l < 128 → S.semaTable.Clear l
  | semaDowned => True
  | semaUp l => l < 128 ∧ S.semaTable.Clear l

/-- A process starts. -/
structure SyncStart (S : UserSync) : Prop where
  lockHandles : ∀ h, S.lockTable.handles h = none
  semaHandles : ∀ h, S.semaTable.handles h = none
  waits : ∀ t, S.waits t = none
  fresh : ∀ p, S.brk ≤ p → S.Unused p

/-- Thread `i.1` takes the step `i.2`. -/
def SyncStep (S : UserSync) (i : ℕ × SyncCall) (S' : UserSync) : Prop :=
  i.2.Enabled S i.1 ∧ ∃ a, (i.2.perform i.1).run S = some (a, S')

/-- The invariant of runs that meet it. -/
structure SyncInv (S : UserSync) : Prop where
  locks : ∀ {h p}, S.lockTable.handles h = some p →
    h < 128 ∧ S.lockTable.slots h = some p ∧ (S.locks p).isSome
  semas : ∀ {h p}, S.semaTable.handles h = some p →
    h < 128 ∧ S.semaTable.slots h = some p ∧ (S.semas p).isSome
  fresh : ∀ p, S.brk ≤ p → S.Unused p
  waitsLock : ∀ {t p}, S.waits t = some (.lock p) → (S.locks p).isSome

/-! ### What the steps do -/

section Steps

variable {α : Type} {S : UserSync} {Q : α → UserSync → Prop}

theorem returns_charIndex {l : UInt8} {f : ℕ → OnSync α} :
    Returns (charIndex l >>= f) S Q ↔ l < 128 ∧ Returns (f l.toNat) S Q := by
  unfold charIndex
  split_ifs with h
  · rw [returns_pure_bind]
    exact (and_iff_right h).symm
  · exact iff_of_false not_returns_halt_bind fun h' => h h'.1

theorem returns_mallocBlock {f : Option ℕ → OnSync α} :
    Returns (mallocBlock >>= f) S Q ↔
      if S.memory 0 = true then
        Returns (f (some S.brk)) { S with memory := fun n => S.memory (n + 1), brk := S.brk + 1 } Q
      else Returns (f none) { S with memory := fun n => S.memory (n + 1) } Q := by
  unfold mallocBlock
  by_cases h : S.memory 0 = true
  · simp [h]
  · simp [h]

theorem returns_lockHeld {p t : ℕ} {f : Bool → OnSync α} :
    Returns (lockHeld p t >>= f) S Q ↔ ∃ holder, S.locks p = some holder ∧
      Returns (f (holder = some t)) { S with touched := S.touched ++ [p] } Q := by
  unfold lockHeld
  cases hp : S.locks p with
  | none => simp [hp]
  | some holder => simp [hp]

end Steps

/-! ### Tables -/

section Tables

variable {S : UserSync} {T T' : HandleTable} {i p : ℕ}

theorem add_handles_self : (T.add i p).handles i = some p := Function.update_self ..

theorem add_slots_self : (T.add i p).slots i = some p := Function.update_self ..

theorem add_handles_of_ne {j : ℕ} (h : j ≠ i) : (T.add i p).handles j = T.handles j :=
  Function.update_of_ne h ..

theorem add_slots_of_ne {j : ℕ} (h : j ≠ i) : (T.add i p).slots j = T.slots j :=
  Function.update_of_ne h ..

/-- A table whose slots and handles are as before. -/
theorem Extends.of_eq (hdenotes : ∀ {h p}, T.handles h = some p → T.slots h = some p)
    (hhandles : T'.handles = T.handles) (hslots : T'.slots = T.slots) : Extends S T T' where
  kept h := by rw [hhandles, h]
  denotes h := by
    rw [hhandles] at h
    rw [hslots, hdenotes h]
  fresh h := .inl (by rw [← hhandles, h])

/-- **A new handle.** -/
theorem Extends.add (hdenotes : ∀ {h p}, T.handles h = some p → T.slots h = some p)
    (hfree : T.handles i = none) (hp : S.Unused p) (hhandles : T'.handles = T.handles)
    (hslots : T'.slots = T.slots) : Extends S T (T'.add i p) where
  kept {h q} hq := by
    have hne : h ≠ i := by
      rintro rfl
      rw [hfree] at hq
      cases hq
    rw [add_handles_of_ne hne, hhandles, hq]
  denotes {h q} hq := by
    by_cases hne : h = i
    · subst hne
      rw [add_handles_self] at hq
      rw [add_slots_self, hq]
    · rw [add_handles_of_ne hne, hhandles] at hq
      rw [add_slots_of_ne hne, hslots, hdenotes hq]
  fresh {h q} hq := by
    by_cases hne : h = i
    · subst hne
      rw [add_handles_self] at hq
      cases hq
      exact .inr hp
    · rw [add_handles_of_ne hne, hhandles] at hq
      exact .inl hq

/-- A handle that is taken is not new. -/
theorem not_extends_add (hused : ∃ q, T.handles i = some q ∧ q ≠ p) : ¬Extends S T (T'.add i p) := by
  rintro ⟨hkept, -, -⟩
  obtain ⟨q, hq, hne⟩ := hused
  have := hkept hq
  rw [add_handles_self] at this
  exact hne (Option.some.inj this).symm

end Tables

variable {S S' : UserSync} {t : ℕ} {c : SyncCall} {l : UInt8}

theorem SyncInv.lockDenotes (hi : SyncInv S) {h p : ℕ} (hp : S.lockTable.handles h = some p) :
    S.lockTable.slots h = some p :=
  (hi.locks hp).2.1

theorem SyncInv.semaDenotes (hi : SyncInv S) {h p : ℕ} (hp : S.semaTable.handles h = some p) :
    S.semaTable.slots h = some p :=
  (hi.semas hp).2.1

/-- The primitives of handles are no fresh ones. -/
theorem SyncInv.ne_brk (hi : SyncInv S) {h p : ℕ} (hp : S.lockTable.handles h = some p) :
    p ≠ S.brk := by
  rintro rfl
  have hsome := (hi.locks hp).2.2
  rw [(hi.fresh _ (Nat.le_refl _)).1] at hsome
  cases hsome

theorem SyncInv.sema_ne_brk (hi : SyncInv S) {h p : ℕ} (hp : S.semaTable.handles h = some p) :
    p ≠ S.brk := by
  rintro rfl
  have hsome := (hi.semas hp).2.2
  rw [(hi.fresh _ (Nat.le_refl _)).2] at hsome
  cases hsome

/-- The tables are as before. -/
theorem SyncInv.extends (hi : SyncInv S) (hlocks : S'.lockTable = S.lockTable)
    (hsemas : S'.semaTable = S.semaTable) :
    Extends S S.lockTable S'.lockTable ∧ Extends S S.semaTable S'.semaTable := by
  rw [hlocks, hsemas]
  exact ⟨.of_eq hi.lockDenotes rfl rfl, .of_eq hi.semaDenotes rfl rfl⟩

/-! ### Locks -/

/-- `lock_init` is safe if and only if the next handle is free, or there is no memory. -/
theorem sysLockInit_safe (hi : SyncInv S) :
    StepSafe S t .lockInit ↔ SyncCall.lockInit.Meets S t := by
  have hunused := hi.fresh S.brk (Nat.le_refl _)
  have hsema : Extends S S.semaTable S.semaTable := .of_eq hi.semaDenotes rfl rfl
  show Returns sysLockInit S _ ↔ (S.memory 0 = true → S.lockTable.Free _)
  unfold sysLockInit
  rw [returns_get_bind, returns_set_bind, returns_mallocBlock]
  generalize S.lockTable.next.toUInt8 = l
  dsimp only
  split_ifs with hmemory
  · rw [returns_modify_bind, returns_charIndex, returns_modify_bind, returns_pure]
    constructor
    · rintro ⟨hl, h⟩ -
      refine ⟨hl, Option.eq_none_iff_forall_ne_some.2 fun q hq => ?_⟩
      exact not_extends_add ⟨q, hq, hi.ne_brk hq⟩ h.locks
    · intro h
      obtain ⟨hl, hfree⟩ := h hmemory
      refine ⟨hl, ⟨.add hi.lockDenotes hfree hunused rfl rfl, hsema, fun l' hl' => ?_,
        (fun l' hl' => by cases hl')⟩⟩
      cases hl'
      exact ⟨hfree, S.brk, hunused, add_handles_self⟩
  · rw [returns_pure]
    exact iff_of_true ⟨.of_eq hi.lockDenotes rfl rfl, hsema, (fun l' hl' => by cases hl'),
      (fun l' hl' => by cases hl')⟩ fun h => absurd h hmemory

/-- A handle that is looked up: its slot is null, or it is a handle that an init has
returned. -/
theorem SyncInv.lock_cases (hi : SyncInv S) (hclear : S.lockTable.Clear l) :
    S.lockTable.handles l.toNat = none ∧ S.lockTable.slots l.toNat = none ∨
      ∃ p holder, S.lockTable.handles l.toNat = some p ∧ S.lockTable.slots l.toNat = some p ∧
        S.locks p = some holder := by
  cases hh : S.lockTable.handles l.toNat with
  | none => exact .inl ⟨rfl, hclear hh⟩
  | some p =>
    obtain ⟨-, hslot, hsome⟩ := hi.locks hh
    obtain ⟨holder, hholder⟩ := Option.isSome_iff_exists.1 hsome
    exact .inr ⟨p, holder, rfl, hslot, hholder⟩

theorem SyncInv.sema_cases (hi : SyncInv S) (hclear : S.semaTable.Clear l) :
    S.semaTable.handles l.toNat = none ∧ S.semaTable.slots l.toNat = none ∨
      ∃ p v, S.semaTable.handles l.toNat = some p ∧ S.semaTable.slots l.toNat = some p ∧
        S.semas p = some v := by
  cases hh : S.semaTable.handles l.toNat with
  | none => exact .inl ⟨rfl, hclear hh⟩
  | some p =>
    obtain ⟨-, hslot, hsome⟩ := hi.semas hh
    obtain ⟨v, hv⟩ := Option.isSome_iff_exists.1 hsome
    exact .inr ⟨p, v, rfl, hslot, hv⟩

/-- Tables and handles that are not asked about. -/
theorem SyncInv.answered (hi : SyncInv S) {a : Answer} (hlocks : S'.lockTable = S.lockTable)
    (hsemas : S'.semaTable = S.semaTable) (ha : ∀ l, a ≠ .handle l true)
    (hrefused : ∀ l, c.handle = some l → (c.table S).handles l.toNat = none →
      a = .returned false ∧ S'.touched = S.touched) : Answered S c a S' :=
  ⟨(hi.extends hlocks hsemas).1, (hi.extends hlocks hsemas).2, fun l hl => absurd hl (ha l),
    hrefused⟩

/-- What uses the primitive of a handle that no init has returned. -/
theorem not_answered {a : Answer} {p : ℕ} (hl : c.handle = some l)
    (hnone : (c.table S).handles l.toNat = none) (htouched : S'.touched = S.touched ++ [p]) :
    ¬Answered S c a S' := by
  intro h
  have hsame := (h.refused l hl hnone).2
  rw [htouched] at hsame
  exact absurd (congrArg List.length hsame) (by simp)

theorem issued_of_some {T : HandleTable} {p : ℕ} (h : T.handles l.toNat = some p) :
    ∀ l', some l = some l' → T.handles l'.toNat ≠ none := by
  rintro l' hl' hnone
  cases hl'
  rw [h] at hnone
  cases hnone

/-- `lock_acquire` is safe if and only if its condition is met. -/
theorem sysLockAcquire_safe (hi : SyncInv S) :
    StepSafe S t (.lockAcquire l) ↔ (SyncCall.lockAcquire l).Meets S t := by
  show Returns (sysLockAcquire t l) S _ ↔ l < 128 ∧ S.lockTable.Clear l
  unfold sysLockAcquire
  rw [returns_charIndex, returns_get_bind]
  refine and_congr_right fun _ => ?_
  constructor
  · intro h hnone
    cases hslot : S.lockTable.slots l.toNat with
    | none => rfl
    | some p =>
      rw [hslot] at h
      obtain ⟨holder, -, h⟩ := returns_lockHeld.1 h
      split_ifs at h with hheld
      · rw [returns_modify_bind, returns_pure] at h
        exact absurd h (not_answered (p := p) rfl hnone rfl)
      · rw [returns_pure] at h
        exact absurd h (not_answered (p := p) rfl hnone rfl)
  · intro hclear
    rcases hi.lock_cases hclear with ⟨hnone, hslot⟩ | ⟨p, holder, hhandle, hslot, hholder⟩
    · rw [hslot]
      exact returns_pure.2 (hi.answered rfl rfl (by simp) fun l' _ _ => ⟨rfl, rfl⟩)
    · have hissued := issued_of_some hhandle
      rw [hslot]
      dsimp only
      refine returns_lockHeld.2 ⟨holder, hholder, ?_⟩
      split_ifs
      · rw [returns_modify_bind, returns_pure]
        exact hi.answered rfl rfl (by simp) fun l' hl' h => absurd h (hissued l' hl')
      · rw [returns_pure]
        exact hi.answered rfl rfl (by simp) fun l' hl' h => absurd h (hissued l' hl')

/-- `lock_release`, likewise. -/
theorem sysLockRelease_safe (hi : SyncInv S) :
    StepSafe S t (.lockRelease l) ↔ (SyncCall.lockRelease l).Meets S t := by
  show Returns (sysLockRelease t l) S _ ↔ l < 128 ∧ S.lockTable.Clear l
  unfold sysLockRelease
  rw [returns_charIndex, returns_get_bind]
  refine and_congr_right fun _ => ?_
  constructor
  · intro h hnone
    cases hslot : S.lockTable.slots l.toNat with
    | none => rfl
    | some p =>
      rw [hslot] at h
      obtain ⟨holder, -, h⟩ := returns_lockHeld.1 h
      split_ifs at h with hheld
      · rw [returns_modify_bind, returns_pure] at h
        exact absurd h (not_answered (p := p) rfl hnone rfl)
      · rw [returns_pure] at h
        exact absurd h (not_answered (p := p) rfl hnone rfl)
  · intro hclear
    rcases hi.lock_cases hclear with ⟨hnone, hslot⟩ | ⟨p, holder, hhandle, hslot, hholder⟩
    · rw [hslot]
      exact returns_pure.2 (hi.answered rfl rfl (by simp) fun l' _ _ => ⟨rfl, rfl⟩)
    · have hissued := issued_of_some hhandle
      rw [hslot]
      dsimp only
      refine returns_lockHeld.2 ⟨holder, hholder, ?_⟩
      split_ifs
      · rw [returns_modify_bind, returns_pure]
        exact hi.answered rfl rfl (by simp) fun l' hl' h => absurd h (hissued l' hl')
      · rw [returns_pure]
        exact hi.answered rfl rfl (by simp) fun l' hl' h => absurd h (hissued l' hl')

/-- **The second look at the handle**: `*l` has to be one of the lock's handles, or none. -/
theorem lockAcquired_safe (hi : SyncInv S) (he : (SyncCall.lockAcquired l).Enabled S t) :
    StepSafe S t (.lockAcquired l) ↔ (SyncCall.lockAcquired l).Meets S t := by
  obtain ⟨p, hwaits, -⟩ := he
  show Returns (lockAcquired t l) S _ ↔ l < 128 ∧ ∀ q, S.lockTable.handles l.toNat = some q →
    S.waits t = some (.lock q)
  unfold lockAcquired
  rw [returns_get_bind, hwaits]
  dsimp only
  rw [returns_set_bind, returns_charIndex, returns_modify_bind, returns_pure]
  refine and_congr_right fun _ => ⟨fun h q hq => ?_, fun h => ?_⟩
  · have hslot := h.locks.denotes (h.locks.kept hq)
    dsimp only at hslot
    rw [Function.update_self] at hslot
    rw [Option.some.inj hslot]
  · refine ⟨⟨id, fun {h' q} hq => ?_, .inl⟩, .of_eq hi.semaDenotes rfl rfl,
      (fun l' hl' => by cases hl'), (fun l' hl' => by cases hl')⟩
    by_cases hne : h' = l.toNat
    · subst hne
      have hpq := h q hq
      cases hpq
      exact Function.update_self ..
    · exact (Function.update_of_ne hne ..).trans (hi.lockDenotes hq)

/-! ### Semaphores -/

/-- `sema_init`, likewise. -/
theorem sysSemaInit_safe (hi : SyncInv S) {val : ℕ} :
    StepSafe S t (.semaInit val) ↔ (SyncCall.semaInit val).Meets S t := by
  have hunused := hi.fresh S.brk (Nat.le_refl _)
  have hlock : Extends S S.lockTable S.lockTable := .of_eq hi.lockDenotes rfl rfl
  show Returns (sysSemaInit val) S _ ↔ (S.memory 0 = true → S.semaTable.Free _)
  unfold sysSemaInit
  rw [returns_get_bind, returns_set_bind, returns_mallocBlock]
  generalize S.semaTable.next.toUInt8 = l
  dsimp only
  split_ifs with hmemory
  · rw [returns_modify_bind, returns_charIndex, returns_modify_bind, returns_pure]
    constructor
    · rintro ⟨hl, h⟩ -
      refine ⟨hl, Option.eq_none_iff_forall_ne_some.2 fun q hq => ?_⟩
      exact not_extends_add ⟨q, hq, hi.sema_ne_brk hq⟩ h.semas
    · intro h
      obtain ⟨hl, hfree⟩ := h hmemory
      refine ⟨hl, ⟨hlock, .add hi.semaDenotes hfree hunused rfl rfl, fun l' hl' => ?_,
        (fun l' hl' => by cases hl')⟩⟩
      cases hl'
      exact ⟨hfree, S.brk, hunused, add_handles_self⟩
  · rw [returns_pure]
    exact iff_of_true ⟨hlock, .of_eq hi.semaDenotes rfl rfl, (fun l' hl' => by cases hl'),
      (fun l' hl' => by cases hl')⟩ fun h => absurd h hmemory

/-- `sema_down`, likewise. -/
theorem sysSemaDown_safe (hi : SyncInv S) {sema : Option UInt8} :
    StepSafe S t (.semaDown sema) ↔ (SyncCall.semaDown sema).Meets S t := by
  show Returns (sysSemaDown t sema) S _ ↔ ∀ l, sema = some l → l < 128 → S.semaTable.Clear l
  unfold sysSemaDown
  cases sema with
  | none =>
    refine iff_of_true (returns_pure.2 (hi.answered rfl rfl (by simp) ?_)) (by simp)
    exact fun l' hl' => by cases hl'
  | some l =>
    dsimp only
    split_ifs with hneg
    · refine iff_of_true (returns_pure.2 (hi.answered rfl rfl (by simp) fun l' _ _ => ⟨rfl, rfl⟩)) ?_
      intro l' hl' hlt
      cases hl'
      exact absurd hlt (UInt8.not_lt.2 hneg)
    · have hlt := UInt8.not_le.1 hneg
      rw [returns_charIndex, returns_get_bind]
      constructor
      · rintro ⟨-, h⟩ l' hl' - hnone
        cases hl'
        cases hslot : S.semaTable.slots l.toNat with
        | none => rfl
        | some p =>
          rw [hslot] at h
          dsimp only at h
          rw [returns_set_bind] at h
          cases hv : S.semas p with
          | none =>
            rw [hv] at h
            exact absurd h not_returns_halt
          | some v =>
            rw [hv] at h
            dsimp only at h
            rw [returns_modify_bind, returns_pure] at h
            exact absurd h (not_answered (p := p) rfl hnone rfl)
      · intro hclear
        refine ⟨hlt, ?_⟩
        rcases hi.sema_cases (hclear l rfl hlt) with ⟨hnone, hslot⟩ | ⟨p, v, hhandle, hslot, hv⟩
        · rw [hslot]
          exact returns_pure.2 (hi.answered rfl rfl (by simp) fun l' _ _ => ⟨rfl, rfl⟩)
        · rw [hslot]
          dsimp only
          rw [returns_set_bind, hv]
          dsimp only
          rw [returns_modify_bind, returns_pure]
          exact hi.answered rfl rfl (by simp) fun l' hl' h => absurd h (issued_of_some hhandle l' hl')

theorem semaDowned_safe (hi : SyncInv S) (he : SyncCall.semaDowned.Enabled S t) :
    StepSafe S t .semaDowned := by
  obtain ⟨p, v, hwaits, hv⟩ := he
  show Returns (semaDowned t) S _
  unfold semaDowned
  rw [returns_get_bind, hwaits]
  dsimp only
  rw [hv]
  dsimp only
  rw [returns_set_bind, returns_pure]
  exact hi.answered rfl rfl (by simp) fun l' hl' => by cases hl'

/-- `sema_up`, likewise. -/
theorem sysSemaUp_safe (hi : SyncInv S) :
    StepSafe S t (.semaUp l) ↔ (SyncCall.semaUp l).Meets S t := by
  show Returns (sysSemaUp l) S _ ↔ l < 128 ∧ S.semaTable.Clear l
  unfold sysSemaUp
  rw [returns_charIndex, returns_get_bind]
  refine and_congr_right fun hlt => ?_
  rw [if_neg (UInt8.not_le.2 hlt)]
  constructor
  · intro h hnone
    cases hslot : S.semaTable.slots l.toNat with
    | none => rfl
    | some p =>
      rw [hslot] at h
      dsimp only at h
      rw [returns_set_bind] at h
      cases hv : S.semas p with
      | none =>
        rw [hv] at h
        exact absurd h not_returns_halt
      | some v =>
        rw [hv] at h
        dsimp only at h
        rw [returns_modify_bind, returns_pure] at h
        exact absurd h (not_answered (p := p) rfl hnone rfl)
  · intro hclear
    rcases hi.sema_cases hclear with ⟨hnone, hslot⟩ | ⟨p, v, hhandle, hslot, hv⟩
    · rw [hslot]
      exact returns_pure.2 (hi.answered rfl rfl (by simp) fun l' _ _ => ⟨rfl, rfl⟩)
    · rw [hslot]
      dsimp only
      rw [returns_set_bind, hv]
      dsimp only
      rw [returns_modify_bind, returns_pure]
      exact hi.answered rfl rfl (by simp) fun l' hl' h => absurd h (issued_of_some hhandle l' hl')

/-! ### Whole runs -/

theorem isSome_update {β : Type} {m : ℕ → Option β} {p : ℕ} (h : (m p).isSome) (b : β) (q : ℕ) :
    (Function.update m p (some b) q).isSome = (m q).isSome := by
  by_cases hq : q = p
  · subst hq
    rw [Function.update_self, h]
    rfl
  · rw [Function.update_of_ne hq]

theorem isSome_of_update {β : Type} {m : ℕ → Option β} {p q : ℕ} {b : β} (h : (m q).isSome) :
    (Function.update m p (some b) q).isSome := by
  by_cases hq : q = p
  · subst hq
    rw [Function.update_self]
    rfl
  · rw [Function.update_of_ne hq]
    exact h

/-- The same primitives are in memory. -/
structure SamePrimitives (S S' : UserSync) : Prop where
  locks : ∀ p, (S'.locks p).isSome = (S.locks p).isSome
  semas : ∀ p, (S'.semas p).isSome = (S.semas p).isSome
  brk : S'.brk = S.brk

theorem SamePrimitives.of_eq (hlocks : S'.locks = S.locks) (hsemas : S'.semas = S.semas)
    (hbrk : S'.brk = S.brk) : SamePrimitives S S' := by
  refine ⟨fun p => ?_, fun p => ?_, hbrk⟩
  · rw [hlocks]
  · rw [hsemas]

/-- The same primitives, and handles that denote the same. -/
theorem SyncInv.of_same (hi : SyncInv S) (h : SamePrimitives S S')
    (hlocks : ∀ {h p}, S'.lockTable.handles h = some p →
      S.lockTable.handles h = some p ∧ S'.lockTable.slots h = some p)
    (hsemas : ∀ {h p}, S'.semaTable.handles h = some p →
      S.semaTable.handles h = some p ∧ S'.semaTable.slots h = some p)
    (hwaits : ∀ {t p}, S'.waits t = some (.lock p) → (S.locks p).isSome) : SyncInv S' where
  locks hp := by
    obtain ⟨hold, hslot⟩ := hlocks hp
    obtain ⟨hlt, -, hsome⟩ := hi.locks hold
    exact ⟨hlt, hslot, (h.locks _).trans hsome⟩
  semas hp := by
    obtain ⟨hold, hslot⟩ := hsemas hp
    obtain ⟨hlt, -, hsome⟩ := hi.semas hold
    exact ⟨hlt, hslot, (h.semas _).trans hsome⟩
  fresh p hp := by
    have hunused := hi.fresh p (h.brk ▸ hp)
    have hlock := h.locks p
    have hsema := h.semas p
    rw [hunused.1] at hlock
    rw [hunused.2] at hsema
    exact ⟨Option.not_isSome_iff_eq_none.1 (by simp [hlock]),
      Option.not_isSome_iff_eq_none.1 (by simp [hsema])⟩
  waitsLock hp := (h.locks _).trans (hwaits hp)

/-- The tables are as before. -/
theorem SyncInv.of_same_tables (hi : SyncInv S) (h : SamePrimitives S S')
    (hlocks : S'.lockTable = S.lockTable) (hsemas : S'.semaTable = S.semaTable)
    (hwaits : ∀ {t p}, S'.waits t = some (.lock p) → (S.locks p).isSome) : SyncInv S' :=
  hi.of_same h (fun hp => ⟨hlocks ▸ hp, hlocks.symm ▸ hi.lockDenotes (hlocks ▸ hp)⟩)
    (fun hp => ⟨hsemas ▸ hp, hsemas.symm ▸ hi.semaDenotes (hsemas ▸ hp)⟩) hwaits

/-- What a thread waits for changes. -/
theorem SyncInv.waits_update (hi : SyncInv S) {w : Option WaitsFor}
    (hw : ∀ p, w = some (.lock p) → (S.locks p).isSome) {t' p : ℕ}
    (h : Function.update S.waits t w t' = some (.lock p)) : (S.locks p).isSome := by
  by_cases ht : t' = t
  · subst ht
    rw [Function.update_self] at h
    exact hw p h
  · rw [Function.update_of_ne ht] at h
    exact hi.waitsLock h

theorem sysLockInit_inv (hi : SyncInv S) (hm : SyncCall.lockInit.Meets S t) :
    Returns sysLockInit S fun _ => SyncInv := by
  unfold sysLockInit
  rw [returns_get_bind, returns_set_bind, returns_mallocBlock]
  change S.memory 0 = true → S.lockTable.Free S.lockTable.next.toUInt8 at hm
  generalize S.lockTable.next.toUInt8 = l at hm ⊢
  dsimp only
  split_ifs with hmemory
  · obtain ⟨hl, hfree⟩ := hm hmemory
    rw [returns_modify_bind, returns_charIndex, returns_modify_bind, returns_pure]
    refine ⟨hl, fun {h p} hp => ?_, hi.semas, fun p hp => ?_, fun hw => ?_⟩
    · dsimp only at hp ⊢
      by_cases hne : h = l.toNat
      · subst hne
        rw [add_handles_self] at hp
        cases hp
        refine ⟨UInt8.lt_iff_toNat_lt.1 hl, add_slots_self, ?_⟩
        rw [Function.update_self]
        rfl
      · rw [add_handles_of_ne hne] at hp
        obtain ⟨hlt, hslot, hsome⟩ := hi.locks hp
        exact ⟨hlt, (add_slots_of_ne hne).trans hslot, isSome_of_update hsome⟩
    · have hbrk : S.brk + 1 ≤ p := hp
      have hunused := hi.fresh p (by omega)
      exact ⟨(Function.update_of_ne (by omega) ..).trans hunused.1, hunused.2⟩
    · exact isSome_of_update (hi.waitsLock hw)
  · rw [returns_pure]
    exact hi.of_same (.of_eq rfl rfl rfl) (fun h => ⟨h, hi.lockDenotes h⟩)
      (fun h => ⟨h, hi.semaDenotes h⟩) hi.waitsLock

theorem sysSemaInit_inv (hi : SyncInv S) {val : ℕ} (hm : (SyncCall.semaInit val).Meets S t) :
    Returns (sysSemaInit val) S fun _ => SyncInv := by
  unfold sysSemaInit
  rw [returns_get_bind, returns_set_bind, returns_mallocBlock]
  change S.memory 0 = true → S.semaTable.Free S.semaTable.next.toUInt8 at hm
  generalize S.semaTable.next.toUInt8 = l at hm ⊢
  dsimp only
  split_ifs with hmemory
  · obtain ⟨hl, hfree⟩ := hm hmemory
    rw [returns_modify_bind, returns_charIndex, returns_modify_bind, returns_pure]
    refine ⟨hl, hi.locks, fun {h p} hp => ?_, fun p hp => ?_, hi.waitsLock⟩
    · dsimp only at hp ⊢
      by_cases hne : h = l.toNat
      · subst hne
        rw [add_handles_self] at hp
        cases hp
        refine ⟨UInt8.lt_iff_toNat_lt.1 hl, add_slots_self, ?_⟩
        rw [Function.update_self]
        rfl
      · rw [add_handles_of_ne hne] at hp
        obtain ⟨hlt, hslot, hsome⟩ := hi.semas hp
        exact ⟨hlt, (add_slots_of_ne hne).trans hslot, isSome_of_update hsome⟩
    · have hbrk : S.brk + 1 ≤ p := hp
      have hunused := hi.fresh p (by omega)
      exact ⟨hunused.1, (Function.update_of_ne (by omega) ..).trans hunused.2⟩
  · rw [returns_pure]
    exact hi.of_same (.of_eq rfl rfl rfl) (fun h => ⟨h, hi.lockDenotes h⟩)
      (fun h => ⟨h, hi.semaDenotes h⟩) hi.waitsLock

/-- The look-up keeps everything but what was used. -/
theorem SyncInv.touch (hi : SyncInv S) {ps : List ℕ} : SyncInv { S with touched := ps } :=
  hi.of_same_tables (.of_eq rfl rfl rfl) rfl rfl hi.waitsLock

theorem ensures_charIndex {α : Type} {f : ℕ → OnSync α} {Q : α → UserSync → Prop}
    (h : l < 128 → Ensures (f l.toNat) S Q) : Ensures (charIndex l >>= f) S Q := by
  unfold charIndex
  split_ifs with hl
  · exact h hl
  · intro a s' hrun
    cases hrun

theorem lockHeld_ensures {p : ℕ} : Ensures (lockHeld p t) S fun _ S' =>
    (S.locks p).isSome ∧ S' = { S with touched := S.touched ++ [p] } := by
  intro held S' hrun
  unfold lockHeld at hrun
  cases hp : S.locks p with
  | none =>
    simp [hp] at hrun
    cases hrun
  | some holder =>
    simp [hp] at hrun
    exact ⟨rfl, hrun.2.symm⟩

theorem sysLockAcquire_inv (hi : SyncInv S) : Ensures (sysLockAcquire t l) S fun _ => SyncInv := by
  unfold sysLockAcquire
  refine ensures_charIndex fun _ => ?_
  rw [ensures_get_bind]
  cases S.lockTable.slots l.toNat with
  | none => exact ensures_pure hi
  | some p =>
    refine lockHeld_ensures.seq ?_
    rintro held _ ⟨hsome, rfl⟩
    split_ifs
    · refine ensures_pure (hi.of_same_tables (.of_eq rfl rfl rfl) rfl rfl ?_)
      refine hi.waits_update fun q hq => ?_
      cases hq
      exact hsome
    · exact ensures_pure hi.touch

/-- A lock granted to a thread that waited keeps the invariant. -/
theorem lockAcquired_inv (hi : SyncInv S) (hm : (SyncCall.lockAcquired l).Meets S t) :
    Ensures (lockAcquired t l) S fun _ => SyncInv := by
  unfold lockAcquired
  rw [ensures_get_bind]
  cases hw : S.waits t with
  | none => exact ensures_halt
  | some w =>
    cases w with
    | sema p => exact ensures_halt
    | lock p =>
      have hsome := hi.waitsLock hw
      refine ensures_set_bind (ensures_charIndex fun _ => ?_)
      refine ensures_pure (hi.of_same ⟨isSome_update hsome _, fun _ => rfl, rfl⟩ ?_
        (fun h => ⟨h, hi.semaDenotes h⟩) (hi.waits_update (by simp)))
      intro h q hq
      refine ⟨hq, ?_⟩
      by_cases hne : h = l.toNat
      · subst hne
        have hpq := hm.2 q hq
        rw [hw] at hpq
        cases hpq
        exact Function.update_self ..
      · exact (Function.update_of_ne hne ..).trans (hi.lockDenotes hq)

theorem sysLockRelease_inv (hi : SyncInv S) : Ensures (sysLockRelease t l) S fun _ => SyncInv := by
  unfold sysLockRelease
  refine ensures_charIndex fun _ => ?_
  rw [ensures_get_bind]
  cases S.lockTable.slots l.toNat with
  | none => exact ensures_pure hi
  | some p =>
    refine lockHeld_ensures.seq ?_
    rintro held _ ⟨hsome, rfl⟩
    split_ifs
    · exact ensures_pure (hi.of_same_tables ⟨isSome_update hsome _, fun _ => rfl, rfl⟩ rfl rfl
        hi.waitsLock)
    · exact ensures_pure hi.touch

theorem sysSemaDown_inv (hi : SyncInv S) {sema : Option UInt8} :
    Ensures (sysSemaDown t sema) S fun _ => SyncInv := by
  unfold sysSemaDown
  cases sema with
  | none => exact ensures_pure hi
  | some l =>
    dsimp only
    split_ifs
    · exact ensures_pure hi
    · refine ensures_charIndex fun _ => ?_
      rw [ensures_get_bind]
      cases S.semaTable.slots l.toNat with
      | none => exact ensures_pure hi
      | some p =>
        refine ensures_set_bind ?_
        cases S.semas p with
        | none => exact ensures_halt
        | some v => exact ensures_pure (hi.of_same_tables (.of_eq rfl rfl rfl) rfl rfl
            (hi.waits_update (by simp)))

theorem semaDowned_inv (hi : SyncInv S) : Ensures (semaDowned t) S fun _ => SyncInv := by
  unfold semaDowned
  rw [ensures_get_bind]
  cases S.waits t with
  | none => exact ensures_halt
  | some w =>
    cases w with
    | lock p => exact ensures_halt
    | sema p =>
      dsimp only
      cases hv : S.semas p with
      | none => exact ensures_halt
      | some n =>
        cases n with
        | zero => exact ensures_halt
        | succ v =>
          have hsome : (S.semas p).isSome := by rw [hv]; rfl
          exact ensures_set_bind (ensures_pure (hi.of_same_tables
            ⟨fun _ => rfl, isSome_update hsome _, rfl⟩ rfl rfl (hi.waits_update (by simp))))

theorem sysSemaUp_inv (hi : SyncInv S) : Ensures (sysSemaUp l) S fun _ => SyncInv := by
  unfold sysSemaUp
  refine ensures_charIndex fun _ => ?_
  rw [ensures_get_bind]
  split_ifs
  · exact ensures_pure hi
  · cases S.semaTable.slots l.toNat with
    | none => exact ensures_pure hi
    | some p =>
      refine ensures_set_bind ?_
      cases hv : S.semas p with
      | none => exact ensures_halt
      | some v =>
        have hsome : (S.semas p).isSome := by rw [hv]; rfl
        exact ensures_pure (hi.of_same_tables ⟨fun _ => rfl, isSome_update hsome _, rfl⟩ rfl rfl
          hi.waitsLock)

/-- **One call.** -/
theorem SyncCall.inv (hi : SyncInv S) (hm : c.Meets S t) :
    Ensures (c.perform t) S fun _ => SyncInv := by
  cases c with
  | lockInit => exact (sysLockInit_inv hi hm).ensures
  | lockAcquire l => exact sysLockAcquire_inv hi
  | lockAcquired l => exact lockAcquired_inv hi hm
  | lockRelease l => exact sysLockRelease_inv hi
  | semaInit val => exact (sysSemaInit_inv hi hm).ensures
  | semaDown sema => exact sysSemaDown_inv hi
  | semaDowned => exact semaDowned_inv hi
  | semaUp l => exact sysSemaUp_inv hi

theorem SyncStart.inv (h : SyncStart S) : SyncInv S := by
  refine ⟨fun hp => ?_, fun hp => ?_, h.fresh, fun hp => ?_⟩
  · rw [h.lockHandles] at hp
    cases hp
  · rw [h.semaHandles] at hp
    cases hp
  · rw [h.waits] at hp
    cases hp

/-- Exactly the steps that meet the condition are safe. -/
theorem SyncInv.stepSafe_iff (hi : SyncInv S) (he : c.Enabled S t) :
    StepSafe S t c ↔ c.Meets S t := by
  cases c with
  | lockInit => exact sysLockInit_safe hi
  | lockAcquire l => exact sysLockAcquire_safe hi
  | lockAcquired l => exact lockAcquired_safe hi he
  | lockRelease l => exact sysLockRelease_safe hi
  | semaInit val => exact sysSemaInit_safe hi
  | semaDown sema => exact sysSemaDown_safe hi
  | semaDowned => exact iff_of_true (semaDowned_safe hi he) trivial
  | semaUp l => exact sysSemaUp_safe hi

/-- **A run is safe if and only if its steps meet the condition.** -/
theorem syncRun_safe (h : SyncStart S) (calls : List (ℕ × SyncCall)) :
    Throughout SyncStep (fun S i => i.2.Enabled S i.1 → StepSafe S i.1 i.2) S calls ↔
      Throughout SyncStep (fun S i => i.2.Enabled S i.1 → i.2.Meets S i.1) S calls := by
  refine throughout_iff (I := SyncInv) ?_ ?_ h.inv calls
  · rintro S i S' hi hm ⟨he, a, hrun⟩
    exact SyncCall.inv hi (hm he) a S' hrun
  · intro S i hi
    exact forall_congr' fun he => hi.stepSafe_iff he

/-- A process whose fields are zero. -/
def zeroSync : UserSync where
  lockTable := ⟨0, fun _ => none, fun _ => none⟩
  semaTable := ⟨0, fun _ => none, fun _ => none⟩
  locks := fun _ => none
  semas := fun _ => none
  brk := 1
  memory := fun _ => true
  waits := fun _ => none
  touched := []

theorem zeroSync_start : SyncStart zeroSync :=
  ⟨fun _ => rfl, fun _ => rfl, fun _ => rfl, fun _ _ => ⟨rfl, rfl⟩⟩

/-- A lock that is initialised and acquired. -/
theorem syncRun_safe_acquire : Throughout SyncStep
    (fun S i => i.2.Enabled S i.1 → StepSafe S i.1 i.2) zeroSync
    [(1, .lockInit), (1, .lockAcquire 0)] := by
  refine (syncRun_safe zeroSync_start _).2 ⟨fun _ _ => ⟨by decide, rfl⟩, ?_⟩
  rintro S' ⟨-, a, hrun⟩
  cases hrun
  refine ⟨fun _ => ⟨by decide, fun hnone => ?_⟩, fun _ _ => trivial⟩
  cases hnone

/-- Handle 255 is -1. -/
theorem not_syncRun_safe : ¬∀ S, SyncStart S → ∀ calls,
    Throughout SyncStep (fun S i => i.2.Enabled S i.1 → StepSafe S i.1 i.2) S calls := by
  intro h
  obtain ⟨hsafe, -⟩ := h zeroSync zeroSync_start [(1, .semaUp 255)]
  have hmeets := (sysSemaUp_safe zeroSync_start.inv).1 (hsafe rfl)
  exact absurd hmeets.1 (by decide)

end Userprog
end CS162

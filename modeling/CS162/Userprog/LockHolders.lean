/-
# Locks of threads that exit

The calls of `UserLocks` together with `pthread_exit` and `pthread_exit_main`
(`projects1-3/src/userprog/process.c`, lines 972-1048).  What both take for a lock is the
address of a slot of `user_locks`, so the `holder` that they compare with the thread is
the slot itself, and no lock is released.  A slot that holds the thread's own address
would be one of memory that was never set; what follows then does not return.

`pthread_exit_main` goes on to `process_exit`, which frees the process with its locks, so
the main thread does not complete it.

No lock is held by a thread that has exited, in a run where no thread that holds one
exits, and in no other (`userLocks_holders`).
-/

import CS162.Userprog.UserLocks

namespace CS162
namespace Userprog

open CS162.Basis

/-- The loop over the locks, from slot `i` with `n` slots to go. -/
def exitLocks (t : ℕ) : ℕ → ℕ → OnSync Unit
  | _, 0 => return ()
  | i, n + 1 => do
    let S ← get
    if S.lockTable.slots i = some t then halt
    else exitLocks t (i + 1) n

/-- A process with its threads. -/
structure LockThreads where
  sync : UserSync
  main : ℕ
  /-- The threads that have called `pthread_exit`. -/
  left : List ℕ

/-- The thread has completed `pthread_exit`. -/
def LockThreads.Completed (S : LockThreads) (t : ℕ) : Prop := t ∈ S.left ∧ t ≠ S.main

/-- The steps. -/
inductive LockAct where
  | call (c : SyncCall)
  | exit

/-- A thread takes a step. -/
inductive LockStep (S : LockThreads) : ℕ × LockAct → LockThreads → Prop where
  | call {t : ℕ} {c : SyncCall} {a : Answer} {T : UserSync} : t ∉ S.left → c.Enabled S.sync t →
      (c.perform t).run S.sync = some (a, T) → LockStep S (t, .call c) { S with sync := T }
  | exit {t : ℕ} {T : UserSync} : t ∉ S.left → S.sync.waits t = none →
      (exitLocks t 0 256).run S.sync = some ((), T) →
      LockStep S (t, .exit) { S with sync := T, left := t :: S.left }

/-- The lock in the slot is held by the thread. -/
def UserSync.Holds (S : UserSync) (i t : ℕ) : Prop :=
  ∃ p, S.lockTable.slots i = some p ∧ S.locks p = some (some t)

/-- No lock of `user_locks` is held by a thread that has completed `pthread_exit`. -/
def LockThreads.HoldersLive (S : LockThreads) : Prop :=
  ∀ i < 256, ∀ t, S.sync.Holds i t → ¬S.Completed t

/-- A thread other than main that exits holds no lock of `user_locks`. -/
def ExitsFree (S : LockThreads) (i : ℕ × LockAct) : Prop :=
  i.2 = .exit → i.1 ≠ S.main → i.1 ∉ S.left → S.sync.waits i.1 = none →
    (∀ j < 256, S.sync.lockTable.slots j ≠ some i.1) → ∀ j < 256, ¬S.sync.Holds j i.1

variable {S S' : UserSync} {t : ℕ} {l : UInt8}

/-- **The loop releases nothing.** -/
theorem exitLocks_returns {i n : ℕ} {Q : Unit → UserSync → Prop} :
    Returns (exitLocks t i n) S Q ↔
      (∀ j, i ≤ j → j < i + n → S.lockTable.slots j ≠ some t) ∧ Q () S := by
  induction n generalizing i with
  | zero =>
    unfold exitLocks
    rw [returns_pure]
    exact ⟨fun h => ⟨fun j hj hlt => absurd hlt (by omega), h⟩, fun h => h.2⟩
  | succ n ih =>
    unfold exitLocks
    rw [returns_get_bind]
    split_ifs with hslot
    · exact iff_of_false not_returns_halt fun h => h.1 i (Nat.le_refl i) (by omega) hslot
    · rw [ih]
      refine and_congr_left fun _ => ⟨fun h j hj hlt => ?_, fun h j hj hlt => h j (by omega) (by omega)⟩
      rcases Nat.eq_or_lt_of_le hj with rfl | hj
      · exact hslot
      · exact h j hj (by omega)

/-- A lock of the slots is held by the thread that makes the call, or by who held it. -/
def HoldersFrom (S : UserSync) (t : ℕ) (S' : UserSync) : Prop :=
  ∀ i u, S'.Holds i u → u = t ∨ S.Holds i u

theorem HoldersFrom.of_eq (hslots : S'.lockTable.slots = S.lockTable.slots)
    (hlocks : S'.locks = S.locks) : HoldersFrom S t S' := by
  intro i u h
  unfold UserSync.Holds at h
  rw [hslots, hlocks] at h
  exact .inr h

/-- A lock gets another holder, and a slot may point to it. -/
theorem HoldersFrom.update {p : ℕ} {o : Option ℕ} (hholder : ∀ u, o = some u → u = t)
    (hlocks : S'.locks = Function.update S.locks p (some o))
    (hslots : ∀ i q, S'.lockTable.slots i = some q → q = p ∨ S.lockTable.slots i = some q) :
    HoldersFrom S t S' := by
  rintro i u ⟨q, hslot, hq⟩
  rw [hlocks] at hq
  by_cases hqp : q = p
  · subst hqp
    rw [Function.update_self] at hq
    exact .inl (hholder u (Option.some.inj hq))
  · rw [Function.update_of_ne hqp] at hq
    exact .inr ⟨q, (hslots i q hslot).resolve_left hqp, hq⟩

/-- A slot is set. -/
theorem slot_update {f : ℕ → Option ℕ} {k p i q : ℕ} (h : Function.update f k (some p) i = some q) :
    q = p ∨ f i = some q := by
  by_cases hik : i = k
  · subst hik
    rw [Function.update_self] at h
    exact .inl (Option.some.inj h).symm
  · rw [Function.update_of_ne hik] at h
    exact .inr h

/-! ### The calls -/

theorem mallocBlock_ensures : Ensures mallocBlock S fun _ S' =>
    S'.lockTable.slots = S.lockTable.slots ∧ S'.locks = S.locks := by
  unfold mallocBlock
  rw [ensures_get_bind]
  split_ifs
  · exact ensures_set_bind (ensures_pure ⟨rfl, rfl⟩)
  · exact ensures_set_bind (ensures_pure ⟨rfl, rfl⟩)

theorem sysLockInit_holders : Ensures sysLockInit S fun _ => HoldersFrom S t := by
  unfold sysLockInit
  rw [ensures_get_bind]
  refine ensures_set_bind (mallocBlock_ensures.seq ?_)
  rintro block S₁ ⟨hslots, hlocks⟩
  cases block with
  | none => exact ensures_pure (.of_eq hslots hlocks)
  | some p =>
    dsimp only
    rw [ensures_modify_bind]
    refine ensures_charIndex fun _ => ?_
    rw [ensures_modify_bind]
    refine ensures_pure (.update (p := p) (o := none) nofun ?_ fun i q hslot => ?_)
    · exact congrArg (Function.update · p (some none)) hlocks
    · rw [← hslots]
      exact slot_update hslot

theorem sysLockAcquire_holders : Ensures (sysLockAcquire t l) S fun _ => HoldersFrom S t := by
  unfold sysLockAcquire
  refine ensures_charIndex fun _ => ?_
  rw [ensures_get_bind]
  cases S.lockTable.slots l.toNat with
  | none => exact ensures_pure (.of_eq rfl rfl)
  | some p =>
    refine lockHeld_ensures.seq ?_
    rintro held _ ⟨-, rfl⟩
    split_ifs
    · exact ensures_pure (.of_eq rfl rfl)
    · exact ensures_pure (.of_eq rfl rfl)

theorem lockAcquired_holders : Ensures (lockAcquired t l) S fun _ => HoldersFrom S t := by
  unfold lockAcquired
  rw [ensures_get_bind]
  cases S.waits t with
  | none => exact ensures_halt
  | some w =>
    cases w with
    | sema p => exact ensures_halt
    | lock p =>
      refine ensures_set_bind (ensures_charIndex fun _ => ?_)
      refine ensures_pure (.update (p := p) (o := some t) ?_ rfl fun i q => slot_update)
      exact fun u hu => (Option.some.inj hu).symm

theorem sysLockRelease_holders : Ensures (sysLockRelease t l) S fun _ => HoldersFrom S t := by
  unfold sysLockRelease
  refine ensures_charIndex fun _ => ?_
  rw [ensures_get_bind]
  cases S.lockTable.slots l.toNat with
  | none => exact ensures_pure (.of_eq rfl rfl)
  | some p =>
    refine lockHeld_ensures.seq ?_
    rintro held _ ⟨-, rfl⟩
    split_ifs
    · exact ensures_pure (.update (p := p) (o := none) nofun rfl fun i q h => .inr h)
    · exact ensures_pure (.of_eq rfl rfl)

theorem sysSemaInit_holders {val : ℕ} : Ensures (sysSemaInit val) S fun _ => HoldersFrom S t := by
  unfold sysSemaInit
  rw [ensures_get_bind]
  refine ensures_set_bind (mallocBlock_ensures.seq ?_)
  rintro block S₁ ⟨hslots, hlocks⟩
  cases block with
  | none => exact ensures_pure (.of_eq hslots hlocks)
  | some p =>
    dsimp only
    rw [ensures_modify_bind]
    refine ensures_charIndex fun _ => ?_
    rw [ensures_modify_bind]
    exact ensures_pure (.of_eq hslots hlocks)

theorem sysSemaDown_holders {sema : Option UInt8} :
    Ensures (sysSemaDown t sema) S fun _ => HoldersFrom S t := by
  unfold sysSemaDown
  cases sema with
  | none => exact ensures_pure (.of_eq rfl rfl)
  | some l =>
    dsimp only
    split_ifs
    · exact ensures_pure (.of_eq rfl rfl)
    · refine ensures_charIndex fun _ => ?_
      rw [ensures_get_bind]
      cases S.semaTable.slots l.toNat with
      | none => exact ensures_pure (.of_eq rfl rfl)
      | some p =>
        refine ensures_set_bind ?_
        cases S.semas p with
        | none => exact ensures_halt
        | some v => exact ensures_pure (.of_eq rfl rfl)

theorem semaDowned_holders : Ensures (semaDowned t) S fun _ => HoldersFrom S t := by
  unfold semaDowned
  rw [ensures_get_bind]
  cases S.waits t with
  | none => exact ensures_halt
  | some w =>
    cases w with
    | lock p => exact ensures_halt
    | sema p =>
      dsimp only
      cases S.semas p with
      | none => exact ensures_halt
      | some n =>
        cases n with
        | zero => exact ensures_halt
        | succ v => exact ensures_set_bind (ensures_pure (.of_eq rfl rfl))

theorem sysSemaUp_holders : Ensures (sysSemaUp l) S fun _ => HoldersFrom S t := by
  unfold sysSemaUp
  refine ensures_charIndex fun _ => ?_
  rw [ensures_get_bind]
  split_ifs
  · exact ensures_pure (.of_eq rfl rfl)
  · cases S.semaTable.slots l.toNat with
    | none => exact ensures_pure (.of_eq rfl rfl)
    | some p =>
      refine ensures_set_bind ?_
      cases S.semas p with
      | none => exact ensures_halt
      | some v => exact ensures_pure (.of_eq rfl rfl)

/-- **One call.** -/
theorem SyncCall.holders {c : SyncCall} : Ensures (c.perform t) S fun _ => HoldersFrom S t := by
  cases c with
  | lockInit => exact sysLockInit_holders
  | lockAcquire l => exact sysLockAcquire_holders
  | lockAcquired l => exact lockAcquired_holders
  | lockRelease l => exact sysLockRelease_holders
  | semaInit val => exact sysSemaInit_holders
  | semaDown sema => exact sysSemaDown_holders
  | semaDowned => exact semaDowned_holders
  | semaUp l => exact sysSemaUp_holders

/-! ### Runs -/

/-- An exit that returns. -/
theorem LockStep.exits {S : LockThreads} (hleft : t ∉ S.left) (hwaits : S.sync.waits t = none)
    (hslots : ∀ j < 256, S.sync.lockTable.slots j ≠ some t) :
    LockStep S (t, .exit) { S with left := t :: S.left } := by
  have hret : Returns (exitLocks t 0 256) S.sync fun _ T => T = S.sync :=
    exitLocks_returns.2 ⟨fun k _ hk => hslots k (by omega), rfl⟩
  obtain ⟨⟨⟩, T, hrun, rfl⟩ := hret
  exact .exit hleft hwaits hrun

/-- **Exactly the exits of threads that hold a lock leave it held.** -/
theorem holdersLive_iff {S : LockThreads} {i : ℕ × LockAct} (h : S.HoldersLive) :
    (∀ S', LockStep S i S' → S'.HoldersLive) ↔ ExitsFree S i := by
  constructor
  · intro hstep hact hmain hleft hwaits hslots j hj hholds
    obtain ⟨t, a⟩ := i
    cases hact
    exact hstep _ (.exits hleft hwaits hslots) j hj t hholds ⟨List.mem_cons_self, hmain⟩
  · intro hcond S' hstep
    cases hstep with
    | @call t c a T hleft henabled hrun =>
      rintro j hj u hholds ⟨hu, hne⟩
      rcases SyncCall.holders (t := t) _ _ hrun j u hholds with rfl | hholds
      · exact hleft hu
      · exact h j hj u hholds ⟨hu, hne⟩
    | @exit t T hleft hwaits hrun =>
      have hret : Returns (exitLocks t 0 256) S.sync fun _ T' => T' = T := ⟨_, _, hrun, rfl⟩
      obtain ⟨hslots, rfl⟩ := exitLocks_returns.1 hret
      rintro j hj u hholds ⟨hu, hne⟩
      rcases List.mem_cons.1 hu with rfl | hu
      · exact hcond rfl hne hleft hwaits (fun k hk => hslots k (Nat.zero_le k) (by omega)) j hj hholds
      · exact h j hj u hholds ⟨hu, hne⟩

/-- **A run leaves no lock with a dead holder if and only if no thread exits with a lock.** -/
theorem userLocks_holders (S : UserSync) (main : ℕ) (acts : List (ℕ × LockAct)) :
    Throughout LockStep (fun S i => ∀ S', LockStep S i S' → S'.HoldersLive) ⟨S, main, []⟩ acts ↔
      Throughout LockStep ExitsFree ⟨S, main, []⟩ acts := by
  refine throughout_iff (I := LockThreads.HoldersLive) ?_ ?_ ?_ acts
  · exact fun hi hcond hstep => (holdersLive_iff hi).2 hcond _ hstep
  · exact fun hi => holdersLive_iff hi
  · rintro j - u - ⟨hu, -⟩
    cases hu

/-- Thread 2 exits with the lock it has acquired. -/
theorem not_holdersLive : ¬∀ S T main, SyncStart S →
    Leads LockStep (fun _ _ => True) ⟨S, main, []⟩ T → T.HoldersLive := by
  intro h
  have hstart : Leads LockStep (fun _ _ => True) ⟨zeroSync, 1, []⟩ ⟨zeroSync, 1, []⟩ := .refl
  have hinit := hstart.tail ⟨(2, .call .lockInit), trivial, .call nofun rfl rfl⟩
  have hacquire := hinit.tail ⟨(2, .call (.lockAcquire 0)), trivial, .call nofun rfl rfl⟩
  have hacquired := hacquire.tail
    ⟨(2, .call (.lockAcquired 0)), trivial, .call nofun ⟨1, rfl, rfl⟩ rfl⟩
  have hexit := hacquired.tail ⟨(2, .exit), trivial, .exits nofun rfl fun j _ hslot => by
    rcases slot_update hslot with hslot | hslot
    · cases hslot
    · rcases slot_update hslot with hslot | hslot
      · cases hslot
      · cases hslot⟩
  exact h _ _ _ zeroSync_start hexit 0 (by decide) 2 ⟨1, rfl, rfl⟩ ⟨List.mem_cons_self, nofun⟩

end Userprog
end CS162

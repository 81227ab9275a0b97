/-
# The system call handler

`projects1-3/src/userprog/syscall.c`, lines 30-95 (`syscall_handler`), 104-119
(`verify_user`, `get_user`) and 126-134 (`copy_in`), with the page fault handler's
lines 138-143 of `exception.c`: a fault of the kernel at a user address goes on
after the access, with `eax` 0.

`get_user` stores the byte, or 0 after a fault, and returns a local variable that
nothing was assigned to: `leftover` says what it holds in the calls to come.  The
functions of the table are a parameter, from their arguments to how they end.

The `;` after the check of the number ends the `if`, so the handler always exits:
it does what it should for the calls that are not valid, and for no other
(`syscallHandler_dispatches`).
-/

import CS162.Basis.ByteMemory
import CS162.Basis.Calls
import CS162.Userprog.Vaddr

namespace CS162
namespace Userprog

open CS162.Basis

/-- The functions of the table. -/
inductive SyscallFunction where
  | halt | exit | exec | wait | create | remove | open | filesize | read | write | seek | tell
  | close | practice | computeE | pthreadCreate | pthreadExit | pthreadJoin | lockInit
  | lockAcquire | lockRelease | semaInit | semaDown | semaUp | getTid | chdir | mkdir | readdir
  | isdir | inumber | stats
  deriving DecidableEq

/-- `syscall_table`: `arg_cnt` and `func`. -/
def syscallTable : List (ℕ × SyscallFunction) :=
  [(0, .halt), (1, .exit), (1, .exec), (1, .wait), (2, .create), (1, .remove), (1, .open),
    (1, .filesize), (3, .read), (3, .write), (2, .seek), (1, .tell), (1, .close), (1, .practice),
    (1, .computeE), (3, .pthreadCreate), (0, .pthreadExit), (1, .pthreadJoin), (1, .lockInit),
    (1, .lockAcquire), (1, .lockRelease), (2, .semaInit), (1, .semaDown), (1, .semaUp),
    (0, .getTid), (1, .chdir), (1, .mkdir), (2, .readdir), (1, .isdir), (1, .inumber), (0, .stats)]

/-- Three arguments. -/
abbrev Args := UInt32 × UInt32 × UInt32

/-- What a system call works on. -/
structure Trap where
  esp : UInt32
  eax : UInt32
  /-- User memory, and the addresses that are mapped. -/
  user : UInt32 → UInt8
  mapped : UInt32 → Bool
  /-- What `get_user` returns. -/
  leftover : ℕ → Bool
  func : SyscallFunction → Args → Except Stop UInt32
  /-- History: the addresses read. -/
  reads : List UInt32
  /-- History: the table entries called, and their arguments. -/
  invoked : List (SyscallFunction × Args)

abbrev OnTrap := Call Trap

/-- `process_exit`. -/
def processExit : OnTrap Unit := stop .exit

/-- `get_user`: the byte stored and the value returned. -/
def getUser (usrc : UInt32) : OnTrap (UInt8 × Bool) := do
  let T ← get
  set { T with reads := T.reads ++ [usrc], leftover := fun n => T.leftover (n + 1) }
  return (if T.mapped usrc then T.user usrc else 0, T.leftover 0)

/-- `copy_in`. -/
def copyIn : ℕ → UInt32 → OnTrap (List UInt8)
  | 0, _ => return []
  | size + 1, usrc =>
    if physBase ≤ usrc then do
      processExit
      return []
    else do
      let (byte, ok) ← getUser usrc
      if ok = false then processExit
      let bytes ← copyIn size (usrc + 1)
      return byte :: bytes

/-- The word at an index of an array of words. -/
def wordOf (bytes : List UInt8) (i : ℕ) : UInt32 :=
  ofBytes (bytes.getD (4 * i) 0) (bytes.getD (4 * i + 1) 0) (bytes.getD (4 * i + 2) 0)
    (bytes.getD (4 * i + 3) 0)

/-- `sc->func (args[0], args[1], args[2])`. -/
def invoke (func : SyscallFunction) (args : Args) : OnTrap UInt32 := do
  let T ← get
  set { T with invoked := T.invoked ++ [(func, args)] }
  match T.func func args with
  | .ok v => return v
  | .error e => stop e

/-- `syscall_handler`. -/
def syscallHandler : OnTrap Unit := do
  let T ← get
  let number ← copyIn 4 T.esp
  let callNr := (wordOf number 0).toNat
  if syscallTable.length ≤ callNr then pure ()  -- the `;`
  processExit
  match syscallTable[callNr]? with
  | none => stop .panic
  | some (argCnt, func) =>
    if 3 < argCnt then stop .panic
    else
      -- `memset (args, 0, sizeof args)`: what is not copied is 0
      let args ← copyIn (4 * argCnt) (T.esp + 4)
      let v ← invoke func (wordOf args 0, wordOf args 1, wordOf args 2)
      modify fun T => { T with eax := v }

/-! ### What a call is to do -/

/-- The bytes of user memory from an address on. -/
def Trap.bytes (T : Trap) (a : UInt32) (n : ℕ) : List UInt8 :=
  (List.range n).map fun i => T.user (a + UInt32.ofNat i)

/-- The number that the process passes. -/
def Trap.callNr (T : Trap) : ℕ := (wordOf (T.bytes T.esp 4) 0).toNat

/-- The bytes at `esp` and those of `k` arguments are mapped user memory, and the
number is an index of the table whose entry takes `k` arguments. -/
def Trap.Valid (T : Trap) (k : ℕ) (func : SyscallFunction) : Prop :=
  (∀ i < 4 + 4 * k, T.esp.toNat + i < physBase.toNat ∧ T.mapped (T.esp + UInt32.ofNat i) = true) ∧
    syscallTable[T.callNr]? = some (k, func)

/-- The arguments of a call of `k` words. -/
def Trap.args (T : Trap) (k : ℕ) : Args :=
  (wordOf (T.bytes (T.esp + 4) (4 * k)) 0, wordOf (T.bytes (T.esp + 4) (4 * k)) 1,
    wordOf (T.bytes (T.esp + 4) (4 * k)) 2)

/-- The handler calls the function of a valid call, and ends the process on any
other. -/
def Dispatches (T : Trap) : Prop :=
  (∀ k func, T.Valid k func → Ends syscallHandler T fun r T' =>
    T'.invoked = T.invoked ++ [(func, T.args k)] ∧
    ∀ v, T.func func (T.args k) = .ok v → r = .ok () ∧ T'.eax = v) ∧
  ((¬∃ k func, T.Valid k func) → Ends syscallHandler T fun r T' =>
    r = .error .exit ∧ T'.invoked = T.invoked ∧
    ∃ reads, T'.reads = T.reads ++ reads ∧ ∀ a ∈ reads, a < physBase)

/-! ### What the handler does -/

/-- A call that reads below `PHYS_BASE` only, and calls no function. -/
structure Quiet (T T' : Trap) : Prop where
  invoked : T'.invoked = T.invoked
  reads : ∃ reads, T'.reads = T.reads ++ reads ∧ ∀ a ∈ reads, a < physBase

theorem Quiet.refl (T : Trap) : Quiet T T := ⟨rfl, [], by simp, by simp⟩

theorem Quiet.trans {T T' T'' : Trap} (h : Quiet T T') (h' : Quiet T' T'') : Quiet T T'' := by
  obtain ⟨rs, hrs, hlow⟩ := h.reads
  obtain ⟨rs', hrs', hlow'⟩ := h'.reads
  refine ⟨h'.invoked.trans h.invoked, rs ++ rs', by rw [hrs', hrs, List.append_assoc], ?_⟩
  intro a ha
  rcases List.mem_append.1 ha with ha | ha
  · exact hlow a ha
  · exact hlow' a ha

/-- `get_user` reads one byte. -/
theorem getUser_ends {T : Trap} {usrc : UInt32} (hlow : usrc < physBase) :
    Ends (getUser usrc) T fun r T' => (∀ e, r ≠ .error e) ∧ Quiet T T' := by
  unfold getUser
  rw [ends_get_bind, ends_set_bind, ends_pure]
  exact ⟨by simp, rfl, [usrc], rfl, by simpa using hlow⟩

/-- `copy_in` returns or ends the process. -/
theorem copyIn_ends {T : Trap} {size : ℕ} {usrc : UInt32} :
    Ends (copyIn size usrc) T fun r T' => (∀ e, r = .error e → e = .exit) ∧ Quiet T T' := by
  induction size generalizing T usrc with
  | zero => exact ends_pure.2 ⟨by simp, .refl T⟩
  | succ size ih =>
    unfold copyIn
    split_ifs with hhigh
    · exact ends_stop_bind.2 ⟨by simp, .refl T⟩
    · refine (getUser_ends (UInt32.not_le.1 hhigh)).seq (fun r T₁ h => ?_)
        fun e T₁ h => absurd rfl (h.1 e)
      obtain ⟨byte, ok⟩ := r
      dsimp only
      split_ifs with hok
      · exact ends_stop_bind.2 ⟨by simp, h.2⟩
      · refine ih.seq (fun bytes T₂ h₂ => ?_) fun e T₂ h₂ => ⟨?_, h.2.trans h₂.2⟩
        · exact ends_pure.2 ⟨by simp, h.2.trans h₂.2⟩
        · intro e' he
          cases he
          exact h₂.1 e rfl

/-- **The handler always exits.** -/
theorem syscallHandler_exits (T : Trap) :
    Ends syscallHandler T fun r T' => r = .error .exit ∧ Quiet T T' := by
  unfold syscallHandler
  rw [ends_get_bind]
  refine copyIn_ends.seq (fun number T₁ h => ?_) fun e T₁ h => ⟨by rw [h.1 e rfl], h.2⟩
  dsimp only
  split_ifs with hrange
  · exact ends_stop_bind.2 ⟨rfl, h.2⟩
  · exact ends_stop_bind.2 ⟨rfl, h.2⟩

/-- **The dispatch** goes right for the calls that are not valid, and for no other. -/
theorem syscallHandler_dispatches (T : Trap) :
    Dispatches T ↔ ¬∃ k func, T.Valid k func := by
  obtain ⟨r, T', hrun, hr, hquiet⟩ := syscallHandler_exits T
  constructor
  · rintro ⟨hvalid, -⟩ ⟨k, func, h⟩
    obtain ⟨hinvoked, -⟩ := (hvalid k func h).of_run hrun
    rw [hquiet.invoked] at hinvoked
    exact absurd (congrArg List.length hinvoked) (by simp)
  · intro hnone
    refine ⟨fun k func h => absurd ⟨k, func, h⟩ hnone, fun _ => ?_⟩
    exact ⟨r, T', hrun, hr, hquiet.invoked, hquiet.reads⟩

/-- A process that calls `practice (0)`: 13 and 0 lie at the top of its stack. -/
def practiceTrap : Trap where
  esp := 0xbffffff0
  eax := 0
  user a := if a = 0xbffffff0 then 13 else 0
  mapped _ := true
  leftover _ := true
  func func args := if func = .practice then .ok (args.1 + 1) else .error .exit
  reads := []
  invoked := []

/-- The valid call of `practice` ends the process. -/
theorem not_dispatches : ¬∀ T, Dispatches T := by
  intro h
  have hvalid : practiceTrap.Valid 1 .practice := by
    refine ⟨fun i hi => ⟨?_, rfl⟩, by decide⟩
    have hesp : practiceTrap.esp.toNat = 0xbffffff0 := rfl
    have hbase : physBase.toNat = 0xc0000000 := rfl
    rw [hesp, hbase]
    omega
  obtain ⟨r, T', hrun, hr, -⟩ := syscallHandler_exits practiceTrap
  obtain ⟨-, hv⟩ := ((h practiceTrap).1 1 .practice hvalid).of_run hrun
  have hok : practiceTrap.func .practice (practiceTrap.args 1) = .ok 1 := by decide
  cases hr.symm.trans (hv 1 hok).1

end Userprog
end CS162

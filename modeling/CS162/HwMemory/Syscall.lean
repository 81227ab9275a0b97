/-
# User pointers in system calls

`hw-memory/pintos/src/userprog/syscall.c`, lines 19-40 (`syscall_exit` and the two
validators) and 118-164 (`syscall_handler`), with `strnlen` (`lib/string.c`, lines
273-279) and lines 138-151 of `exception.c`: a fault of the kernel at a user address
during a system call ends the process, any other one stops the machine.

Memory is what lies at the addresses that are mapped, below `PHYS_BASE` and above.
What the handler passes to the functions that do the calls is recorded, and how they
end is a parameter.  `lib/syscall-nr.h` has no `SYS_SBRK`, so its number is one too.

`strnlen` looks at a byte before it compares the length with `maxlen`.  A string that
does not end below `PHYS_BASE` is refused after the byte at `PHYS_BASE` has been read,
and this is the only read that leaves user memory (`syscallHandler_confined`).
-/

import CS162.Basis.ByteMemory
import CS162.Basis.Calls
import CS162.Userprog.Vaddr

namespace CS162
namespace HwMemory

open CS162.Basis CS162.Userprog

/-- A call that `syscall_handler` makes, with what it passes. -/
inductive Request where
  | exit (status : UInt32)
  | open (filename : UInt32)
  | write (fd buffer size : UInt32)
  | read (fd buffer size : UInt32)
  | close (fd : UInt32)
  | sbrk (increment : UInt32)
  deriving DecidableEq

/-- What a system call works on. -/
structure Trap where
  esp : UInt32
  eax : UInt32
  /-- `in_syscall` of the thread. -/
  inSyscall : Bool
  /-- The bytes at the addresses that are mapped. -/
  memory : UInt32 → Option UInt8
  /-- `SYS_SBRK`. -/
  sysSbrk : UInt32
  func : Request → Except Stop UInt32
  /-- History: the addresses read. -/
  reads : List UInt32
  /-- History: the calls made. -/
  requests : List Request

abbrev OnTrap := Call Trap

/-- `syscall_exit`. -/
def syscallExit : OnTrap Unit := stop .exit

/-- One byte of memory; `page_fault` when it is not mapped. -/
def readByte (a : UInt32) : OnTrap UInt8 := do
  let T ← get
  set { T with reads := T.reads ++ [a] }
  match T.memory a with
  | some b => return b
  | none => stop (if T.inSyscall = true ∧ isUserVaddr a = true then .exit else .panic)

/-- Consecutive bytes. -/
def readBytes : ℕ → UInt32 → OnTrap (List UInt8)
  | 0, _ => return []
  | n + 1, a => do
    let b ← readByte a
    let bs ← readBytes n (a + 1)
    return b :: bs

/-- The word of four bytes. -/
def leWord (bs : List UInt8) : UInt32 :=
  ofBytes (bs.getD 0 0) (bs.getD 1 0) (bs.getD 2 0) (bs.getD 3 0)

/-- `args[i]`, where `a` is `&args[i]`. -/
def readWord (a : UInt32) : OnTrap UInt32 := do
  let bs ← readBytes 4 a
  return leWord bs

/-- `strnlen`, of what is left of the string and of `maxlen`: the loop tests
`string[length] != '\0' && length < maxlen`, in this order. -/
def strnlen : UInt32 → ℕ → OnTrap ℕ
  | string, 0 => do
    let _ ← readByte string
    return 0
  | string, maxlen + 1 => do
    let b ← readByte string
    if b = 0 then return 0
    else
      let length ← strnlen (string + 1) maxlen
      return length + 1

/-- `validate_buffer_in_user_region`. -/
def validateBufferInUserRegion (buffer length : UInt32) : OnTrap Unit :=
  let delta := physBase - buffer
  if isUserVaddr buffer = false ∨ delta < length then syscallExit else pure ()

/-- `validate_string_in_user_region`. -/
def validateStringInUserRegion (string : UInt32) : OnTrap Unit :=
  let delta := physBase - string
  if isUserVaddr string = false then syscallExit
  else do
    let length ← strnlen string delta.toNat
    if length = delta.toNat then syscallExit else pure ()

/-- The call of one of the functions. -/
def request (r : Request) : OnTrap UInt32 := do
  let T ← get
  set { T with requests := T.requests ++ [r] }
  match T.func r with
  | .ok v => return v
  | .error e => stop e

/-- A case that passes `args[1]`. -/
def requestWord (args : UInt32) (make : UInt32 → Request) : OnTrap UInt32 := do
  validateBufferInUserRegion (args + 4) 4
  let arg ← readWord (args + 4)
  request (make arg)

/-- A case that passes `args[1]` and a buffer at `args[2]` of `args[3]` bytes. -/
def requestBuffer (args : UInt32) (make : UInt32 → UInt32 → UInt32 → Request) : OnTrap UInt32 := do
  validateBufferInUserRegion (args + 4) 12
  let p ← readWord (args + 8)
  let n ← readWord (args + 12)
  validateBufferInUserRegion p n
  let fd ← readWord (args + 4)
  let buffer ← readWord (args + 8)
  let size ← readWord (args + 12)
  request (make fd buffer size)

/-- The case that passes a string at `args[1]`. -/
def requestString (args : UInt32) (make : UInt32 → Request) : OnTrap UInt32 := do
  validateBufferInUserRegion (args + 4) 4
  let string ← readWord (args + 4)
  validateStringInUserRegion string
  let arg ← readWord (args + 4)
  request (make arg)

/-- `f->eax = ...`. -/
def setEax (x : OnTrap UInt32) : OnTrap Unit := do
  let eax ← x
  modify fun T => { T with eax := eax }

/-- The `switch` of `syscall_handler`, on `args[0]`. -/
def dispatch (args nr : UInt32) : OnTrap Unit := do
  let T ← get
  if nr = 1 then  -- `SYS_EXIT`
    let _ ← requestWord args .exit
    syscallExit
  else if nr = 6 then setEax (requestString args .open)  -- `SYS_OPEN`
  else if nr = 9 then setEax (requestBuffer args .write)  -- `SYS_WRITE`
  else if nr = 8 then setEax (requestBuffer args .read)  -- `SYS_READ`
  else if nr = 12 then  -- `SYS_CLOSE`
    let _ ← requestWord args .close
  else if nr = T.sysSbrk then setEax (requestWord args .sbrk)
  else
    let _ ← readWord args  -- for `printf`

/-- `syscall_handler`. -/
def syscallHandler : OnTrap Unit := do
  let T ← get
  let args := T.esp
  modify fun T => { T with inSyscall := true }
  validateBufferInUserRegion args 4
  let nr ← readWord args
  dispatch args nr
  modify fun T => { T with inSyscall := false }

/-! ### What the handler is to accept -/

/-- The byte at an address. -/
def Trap.byte (T : Trap) (k : ℕ) : Option UInt8 := T.memory (UInt32.ofNat k)

/-- Consecutive bytes, if they are mapped. -/
def Trap.bytes (T : Trap) : ℕ → UInt32 → Option (List UInt8)
  | 0, _ => some []
  | n + 1, a => do
    let b ← T.memory a
    let bs ← T.bytes n (a + 1)
    return b :: bs

/-- The word at an address, if it lies wholly below `PHYS_BASE`. -/
def Trap.wordBelow (T : Trap) (a : UInt32) : Option UInt32 :=
  if a.toNat + 4 ≤ physBase.toNat then (T.bytes 4 a).map leWord else none

/-- The range lies below `PHYS_BASE`. -/
def BufferBelow (p n : UInt32) : Prop := p < physBase ∧ p.toNat + n.toNat ≤ physBase.toNat

/-- No byte from an address to another ends a string. -/
def Trap.Runs (T : Trap) (p q : ℕ) : Prop := ∀ k, p ≤ k → k < q → ∃ b, T.byte k = some b ∧ b ≠ 0

/-- There is a string whose terminating null byte lies below `PHYS_BASE`. -/
def Trap.StringBelow (T : Trap) (p : UInt32) : Prop :=
  ∃ q, p.toNat ≤ q ∧ q < physBase.toNat ∧ T.Runs p.toNat q ∧ T.byte q = some 0

/-- The string at an address does not end below `PHYS_BASE`. -/
def Trap.Unending (T : Trap) (p : UInt32) : Prop :=
  p < physBase ∧ T.Runs p.toNat physBase.toNat

/-- The call that the process asks for, with all that it passes below `PHYS_BASE`. -/
def Trap.Asks (T : Trap) : Request → Prop
  | .exit status => T.wordBelow T.esp = some 1 ∧ T.wordBelow (T.esp + 4) = some status
  | .open filename => T.wordBelow T.esp = some 6 ∧ T.wordBelow (T.esp + 4) = some filename ∧
      T.StringBelow filename
  | .write fd buffer size => T.wordBelow T.esp = some 9 ∧ T.wordBelow (T.esp + 4) = some fd ∧
      T.wordBelow (T.esp + 8) = some buffer ∧ T.wordBelow (T.esp + 12) = some size ∧
      BufferBelow buffer size
  | .read fd buffer size => T.wordBelow T.esp = some 8 ∧ T.wordBelow (T.esp + 4) = some fd ∧
      T.wordBelow (T.esp + 8) = some buffer ∧ T.wordBelow (T.esp + 12) = some size ∧
      BufferBelow buffer size
  | .close fd => T.wordBelow T.esp = some 12 ∧ T.wordBelow (T.esp + 4) = some fd
  -- the labels of a `switch` differ
  | .sbrk increment => T.wordBelow T.esp = some T.sysSbrk ∧
      T.wordBelow (T.esp + 4) = some increment ∧
      T.sysSbrk ≠ 1 ∧ T.sysSbrk ≠ 6 ∧ T.sysSbrk ≠ 9 ∧ T.sysSbrk ≠ 8 ∧ T.sysSbrk ≠ 12

/-- Two processes that differ above `PHYS_BASE` only. -/
structure AgreeBelow (T U : Trap) : Prop where
  esp : U.esp = T.esp
  sysSbrk : U.sysSbrk = T.sysSbrk
  memory : ∀ a < physBase, U.memory a = T.memory a

/-- **No kernel memory is reached through user pointers.** -/
structure Trap.Confined (T : Trap) : Prop where
  /-- What the handler reads lies below `PHYS_BASE`. -/
  reads : Ends syscallHandler T fun _ T' =>
    ∃ reads, T'.reads = T.reads ++ reads ∧ ∀ a ∈ reads, a < physBase
  /-- It passes on what the process asks for, and only that. -/
  requests : Ends syscallHandler T fun _ T' =>
    ∃ new : Option Request, T'.requests = T.requests ++ new.toList ∧
      ∀ r, new = some r ↔ T.Asks r
  /-- The validators reject nothing else. -/
  buffers : ∀ p n, Ends (validateBufferInUserRegion p n) { T with inSyscall := true }
    (fun r _ => r = .ok ()) ↔ BufferBelow p n
  strings : ∀ p, Ends (validateStringInUserRegion p) { T with inSyscall := true }
    (fun r _ => r = .ok ()) ↔ T.StringBelow p
  /-- Memory above `PHYS_BASE` makes no difference. -/
  agree : ∀ U, AgreeBelow T U → Ends syscallHandler T fun _ T' =>
    Ends syscallHandler U fun _ U' => ∃ new, T'.requests = T.requests ++ new ∧
      U'.requests = U.requests ++ new

/-- The process opens a file whose name does not end below `PHYS_BASE`. -/
def Trap.Overruns (T : Trap) : Prop :=
  T.wordBelow T.esp = some 6 ∧ ∃ p, T.wordBelow (T.esp + 4) = some p ∧ T.Unending p

/-! ### Reading -/

/-- A call that reads below `PHYS_BASE` only, and calls no function. -/
def Quiet (T T' : Trap) : Prop :=
  ∃ reads, T' = { T with reads := T.reads ++ reads } ∧ ∀ a ∈ reads, a < physBase

theorem Quiet.refl (T : Trap) : Quiet T T := ⟨[], by simp, by simp⟩

theorem Quiet.trans {T T' T'' : Trap} (h : Quiet T T') (h' : Quiet T' T'') : Quiet T T'' := by
  obtain ⟨rs, rfl, hlow⟩ := h
  obtain ⟨rs', rfl, hlow'⟩ := h'
  refine ⟨rs ++ rs', by simp, fun a ha => ?_⟩
  rcases List.mem_append.1 ha with ha | ha
  · exact hlow a ha
  · exact hlow' a ha

variable {T T' : Trap}

theorem physBase_toNat : physBase.toNat = 0xc0000000 := rfl

/-- Addresses below `PHYS_BASE` do not wrap. -/
theorem toNat_add_of_below {a k : UInt32} (h : a.toNat + k.toNat < 2 ^ 32) :
    (a + k).toNat = a.toNat + k.toNat := by
  rw [UInt32.toNat_add, Nat.mod_eq_of_lt h]

theorem isUserVaddr_iff {a : UInt32} : isUserVaddr a = true ↔ a < physBase := by
  simp [isUserVaddr]

/-- What is not known to be returned was not there. -/
theorem eq_none_of_error {α : Type} {o : Option α} {e : Stop}
    (h : ∀ a, (Except.error e : Except Stop α) = .ok a ↔ o = some a) : o = none := by
  refine Option.eq_none_iff_forall_ne_some.2 fun a ha => ?_
  cases (h a).2 ha

/-- `readByte` below `PHYS_BASE`. -/
theorem readByte_ends {a : UInt32} (hin : T.inSyscall = true) (hlow : a < physBase) :
    Ends (readByte a) T fun r T' =>
      Quiet T T' ∧ (∀ b, r = .ok b ↔ T.memory a = some b) ∧ ∀ e, r = .error e → e = .exit := by
  have hquiet : Quiet T { T with reads := T.reads ++ [a] } := ⟨[a], rfl, by simpa using hlow⟩
  unfold readByte
  rw [ends_get_bind, ends_set_bind]
  cases hbyte : T.memory a with
  | none =>
    dsimp only
    rw [ends_stop, if_pos ⟨hin, isUserVaddr_iff.2 hlow⟩]
    exact ⟨hquiet, by simp, fun e he => (Except.error.inj he).symm⟩
  | some b =>
    refine ends_pure.2 ⟨hquiet, fun c => ?_, fun e he => by cases he⟩
    rw [Except.ok.injEq, Option.some.injEq]

theorem Quiet.bytes {n : ℕ} {a : UInt32} (h : Quiet T T') : T'.bytes n a = T.bytes n a := by
  obtain ⟨rs, rfl, -⟩ := h
  induction n generalizing a with
  | zero => rfl
  | succ n ih => simp only [Trap.bytes, ih]

theorem Quiet.wordBelow {a : UInt32} (h : Quiet T T') : T'.wordBelow a = T.wordBelow a := by
  unfold Trap.wordBelow
  rw [h.bytes]

theorem Quiet.inSyscall (h : Quiet T T') : T'.inSyscall = T.inSyscall := by
  obtain ⟨rs, rfl, -⟩ := h
  rfl

/-- Bytes below `PHYS_BASE` are read, or the process exits. -/
theorem readBytes_ends {n : ℕ} {a : UInt32} (hin : T.inSyscall = true)
    (hlow : a.toNat + n ≤ physBase.toNat) :
    Ends (readBytes n a) T fun r T' =>
      Quiet T T' ∧ (∀ bs, r = .ok bs ↔ T.bytes n a = some bs) ∧ ∀ e, r = .error e → e = .exit := by
  induction n generalizing T a with
  | zero => exact ends_pure.2 ⟨.refl T, by simp [Trap.bytes], fun e he => by cases he⟩
  | succ n ih =>
    have hbase := physBase_toNat
    have ha : a < physBase := by
      rw [UInt32.lt_iff_toNat_lt]
      omega
    have hsucc : (a + 1).toNat = a.toNat + 1 := toNat_add_of_below (by
      have hone : (1 : UInt32).toNat = 1 := rfl
      omega)
    unfold readBytes Trap.bytes
    refine (readByte_ends hin ha).seq (fun b T₁ h => ?_) fun e T₁ h => ?_
    · rw [(h.2.1 b).1 rfl]
      refine (ih (h.1.inSyscall.trans hin) (by omega)).seq (fun bs T₂ h₂ => ?_) fun e T₂ h₂ => ?_
      · have hbs : T.bytes n (a + 1) = some bs := h.1.bytes.symm.trans ((h₂.2.1 bs).1 rfl)
        rw [hbs]
        exact ends_pure.2 ⟨h.1.trans h₂.1, fun cs => by simp, fun e he => by cases he⟩
      · have hbs : T.bytes n (a + 1) = none := h.1.bytes.symm.trans (eq_none_of_error h₂.2.1)
        rw [hbs]
        exact ⟨h.1.trans h₂.1, by simp, fun e' he => Except.error.inj he ▸ h₂.2.2 e rfl⟩
    · rw [eq_none_of_error h.2.1]
      exact ⟨h.1, by simp, fun e' he => Except.error.inj he ▸ h.2.2 e rfl⟩

/-- `readWord` below `PHYS_BASE`. -/
theorem readWord_ends {a : UInt32} (hin : T.inSyscall = true)
    (hlow : a.toNat + 4 ≤ physBase.toNat) :
    Ends (readWord a) T fun r T' =>
      Quiet T T' ∧ (∀ w, r = .ok w ↔ T.wordBelow a = some w) ∧ ∀ e, r = .error e → e = .exit := by
  unfold readWord Trap.wordBelow
  rw [if_pos hlow]
  refine (readBytes_ends hin hlow).seq (fun bs T₁ h => ?_) fun e T₁ h => ?_
  · rw [(h.2.1 bs).1 rfl]
    exact ends_pure.2 ⟨h.1, by simp, fun e he => by cases he⟩
  · rw [eq_none_of_error h.2.1]
    exact ⟨h.1, by simp, fun e' he => Except.error.inj he ▸ h.2.2 e rfl⟩

/-! ### The validators -/

/-- **`validate_buffer_in_user_region`** accepts what lies below `PHYS_BASE`. -/
theorem validateBuffer_ends (buffer length : UInt32) :
    Ends (validateBufferInUserRegion buffer length) T fun r T' => T' = T ∧
      (r = .ok () ↔ BufferBelow buffer length) ∧ ∀ e, r = .error e → e = .exit := by
  have hiff : ¬(isUserVaddr buffer = false ∨ physBase - buffer < length) ↔
      BufferBelow buffer length := by
    have hbase := physBase_toNat
    rw [not_or, Bool.not_eq_false, isUserVaddr_iff, UInt32.not_lt]
    refine and_congr_right fun hlow => ?_
    have hle : buffer ≤ physBase := UInt32.le_of_lt hlow
    rw [UInt32.le_iff_toNat_le, UInt32.toNat_sub_of_le _ _ hle]
    rw [UInt32.le_iff_toNat_le] at hle
    omega
  unfold validateBufferInUserRegion
  dsimp only
  split_ifs with hbad
  · refine ends_stop.2 ⟨rfl, ?_, fun e he => (Except.error.inj he).symm⟩
    exact iff_of_false (fun he => by cases he) fun hok => hiff.2 hok hbad
  · exact ends_pure.2 ⟨rfl, iff_of_true rfl (hiff.1 hbad), fun e he => by cases he⟩

/-- A call that reads at `PHYS_BASE`, and calls no function. -/
def Overran (T T' : Trap) : Prop :=
  ∃ reads, T' = { T with reads := T.reads ++ reads } ∧ physBase ∈ reads

theorem Quiet.overran {T'' : Trap} (h : Quiet T T') (h' : Overran T' T'') : Overran T T'' := by
  obtain ⟨rs, rfl, -⟩ := h
  obtain ⟨rs', rfl, hmem⟩ := h'
  exact ⟨rs ++ rs', by simp, List.mem_append.2 (.inr hmem)⟩

theorem Quiet.byte (h : Quiet T T') : T'.byte = T.byte := by
  obtain ⟨rs, rfl, -⟩ := h
  rfl

theorem Quiet.runs {p q : ℕ} (h : Quiet T T') (hruns : T'.Runs p q) : T.Runs p q := by
  unfold Trap.Runs at hruns ⊢
  rwa [h.byte] at hruns

theorem Trap.Runs.cons {p q : ℕ} (h : T.Runs (p + 1) q) {b : UInt8} (hb : T.byte p = some b)
    (hne : b ≠ 0) : T.Runs p q := by
  intro k hpk hkq
  rcases Nat.eq_or_lt_of_le hpk with rfl | hlt
  · exact ⟨b, hb, hne⟩
  · exact h k hlt hkq

theorem byte_toNat (a : UInt32) : T.byte a.toNat = T.memory a := by
  rw [Trap.byte, UInt32.ofNat_toNat]

/-- How `strnlen` ends: at the null byte, at a byte that is not mapped, or after the
byte at `PHYS_BASE`. -/
inductive Scanned (T T' : Trap) (a : UInt32) : Except Stop ℕ → Prop where
  | null (q : ℕ) : a.toNat ≤ q → q < physBase.toNat → T.Runs a.toNat q → T.byte q = some 0 →
      Quiet T T' → Scanned T T' a (.ok (q - a.toNat))
  | fault (q : ℕ) : a.toNat ≤ q → q < physBase.toNat → T.Runs a.toNat q → T.byte q = none →
      Quiet T T' → Scanned T T' a (.error .exit)
  | overran (r : Except Stop ℕ) : T.Runs a.toNat physBase.toNat → Overran T T' →
      r = .ok (physBase.toNat - a.toNat) ∨ r = .error .panic → Scanned T T' a r

/-- **`strnlen` up to `PHYS_BASE`.** -/
theorem strnlen_ends {n : ℕ} {a : UInt32} (hin : T.inSyscall = true)
    (hrange : a.toNat + n = physBase.toNat) :
    Ends (strnlen a n) T fun r T' => Scanned T T' a r := by
  induction n generalizing T a with
  | zero =>
    -- the byte at `PHYS_BASE`
    have ha : a = physBase := UInt32.toNat_inj.1 hrange
    subst ha
    have hruns : T.Runs physBase.toNat physBase.toNat := fun k hk hk' => absurd hk' (by omega)
    have hover : Overran T { T with reads := T.reads ++ [physBase] } := ⟨[physBase], rfl, by simp⟩
    have huser : isUserVaddr physBase = false := by decide
    unfold strnlen readByte
    refine Ends.seq (P := fun r T' => Overran T T' ∧ ∀ e, r = .error e → e = .panic) ?_
      (fun b T₁ h => ?_) fun e T₁ h => ?_
    · rw [ends_get_bind, ends_set_bind]
      cases T.memory physBase with
      | none =>
        dsimp only
        rw [ends_stop, if_neg (by simp [huser])]
        exact ⟨hover, fun e he => (Except.error.inj he).symm⟩
      | some b => exact ends_pure.2 ⟨hover, fun e he => by cases he⟩
    · exact ends_pure.2 (.overran _ hruns h.1 (.inl (by rw [Nat.sub_self])))
    · exact .overran _ hruns h.1 (.inr (by rw [h.2 e rfl]))
  | succ n ih =>
    have hbase := physBase_toNat
    have ha : a < physBase := by
      rw [UInt32.lt_iff_toNat_lt]
      omega
    have hsucc : (a + 1).toNat = a.toNat + 1 := toNat_add_of_below (by
      have hone : (1 : UInt32).toNat = 1 := rfl
      omega)
    have hempty : T.Runs a.toNat a.toNat := fun k hk hk' => absurd hk' (by omega)
    unfold strnlen
    refine (readByte_ends hin ha).seq (fun b T₁ h => ?_) fun e T₁ h => ?_
    · obtain ⟨hq, hb, -⟩ := h
      have hbyte : T.byte a.toNat = some b := (byte_toNat a).trans ((hb b).1 rfl)
      split_ifs with hzero
      · refine ends_pure.2 ?_
        have hnull : Scanned T T₁ _ _ := Scanned.null a.toNat (Nat.le_refl _) (by omega) hempty
          (hzero ▸ hbyte) hq
        rwa [Nat.sub_self] at hnull
      · refine (ih (hq.inSyscall.trans hin) (by omega)).seq (fun length T₂ h₂ => ?_)
          fun e T₂ h₂ => ?_
        · refine ends_pure.2 ?_
          cases h₂ with
          | null q hle hlt hruns hend hq₂ =>
            rw [hsucc] at hle hruns ⊢
            have hsub : q - (a.toNat + 1) + 1 = q - a.toNat := by omega
            rw [hsub]
            exact .null q (by omega) hlt ((hq.runs hruns).cons hbyte hzero) (hq.byte ▸ hend)
              (hq.trans hq₂)
          | overran _ hruns hover hr =>
            rw [hsucc] at hruns hr
            refine .overran _ ((hq.runs hruns).cons hbyte hzero) (hq.overran hover) (.inl ?_)
            rcases hr with hr | hr
            · rw [Except.ok.inj hr]
              exact congrArg _ (by omega)
            · cases hr
        · cases h₂ with
          | fault q hle hlt hruns hend hq₂ =>
            rw [hsucc] at hle hruns
            exact .fault q (by omega) hlt ((hq.runs hruns).cons hbyte hzero) (hq.byte ▸ hend)
              (hq.trans hq₂)
          | overran _ hruns hover hr =>
            rw [hsucc] at hruns
            refine .overran _ ((hq.runs hruns).cons hbyte hzero) (hq.overran hover) (.inr ?_)
            rcases hr with hr | hr
            · cases hr
            · rw [Except.error.inj hr]
    · rw [h.2.2 e rfl]
      refine .fault a.toNat (Nat.le_refl _) (by omega) hempty ?_ h.1
      exact (byte_toNat a).trans (eq_none_of_error h.2.1)

/-- **`validate_string_in_user_region`** accepts the strings that end below `PHYS_BASE`,
and reads further where a string does not. -/
theorem validateString_ends {p : UInt32} (hin : T.inSyscall = true) :
    Ends (validateStringInUserRegion p) T fun r T' => (r = .ok () ↔ T.StringBelow p) ∧
      (Quiet T T' ∧ ¬T.Unending p ∨ Overran T T' ∧ T.Unending p) := by
  have hbase := physBase_toNat
  unfold validateStringInUserRegion
  dsimp only
  split_ifs with huser
  · have hhigh : ¬p < physBase := by
      rw [← isUserVaddr_iff, huser]
      exact Bool.false_ne_true
    refine ends_stop.2 ⟨iff_of_false (fun he => by cases he) ?_, .inl ⟨.refl T, fun h => hhigh h.1⟩⟩
    rintro ⟨q, hle, hlt, -⟩
    rw [UInt32.lt_iff_toNat_lt] at hhigh
    omega
  · have hlow : p < physBase := isUserVaddr_iff.1 (Bool.of_not_eq_false huser)
    have hdelta : (physBase - p).toNat = physBase.toNat - p.toNat :=
      UInt32.toNat_sub_of_le _ _ (UInt32.le_of_lt hlow)
    have hlt := UInt32.lt_iff_toNat_lt.1 hlow
    rw [hdelta]
    refine (strnlen_ends hin (by omega)).seq (fun length T' h => ?_) fun e T' h => ?_
    · cases h with
      | null q hle hq hruns hend hquiet =>
        rw [if_neg (by omega)]
        refine ends_pure.2 ⟨iff_of_true rfl ⟨q, hle, hq, hruns, hend⟩, .inl ⟨hquiet, ?_⟩⟩
        rintro ⟨-, hunending⟩
        obtain ⟨b, hb, hne⟩ := hunending q hle hq
        exact hne (Option.some.inj (hb.symm.trans hend))
      | overran _ hruns hover hr =>
        have hlength : length = physBase.toNat - p.toNat := by
          rcases hr with hr | hr
          · exact Except.ok.inj hr
          · cases hr
        rw [if_pos hlength]
        refine ends_stop.2 ⟨iff_of_false (fun he => by cases he) ?_, .inr ⟨hover, hlow, hruns⟩⟩
        rintro ⟨q, hle, hq, -, hend⟩
        obtain ⟨b, hb, hne⟩ := hruns q hle hq
        exact hne (Option.some.inj (hb.symm.trans hend))
    · refine ⟨iff_of_false (fun he => by cases he) ?_, ?_⟩
      · rintro ⟨q, hle, hq, hruns, hend⟩
        cases h with
        | fault q' hle' hq' hruns' hend' _ =>
          -- the first byte that ends the run
          rcases Nat.lt_trichotomy q q' with hqq | rfl | hqq
          · obtain ⟨b, hb, hne⟩ := hruns' q hle hqq
            exact hne (Option.some.inj (hb.symm.trans hend))
          · cases hend'.symm.trans hend
          · obtain ⟨b, hb, -⟩ := hruns q' hle' hqq
            cases hend'.symm.trans hb
        | overran _ hruns' _ _ =>
          obtain ⟨b, hb, hne⟩ := hruns' q hle hq
          exact hne (Option.some.inj (hb.symm.trans hend))
      · cases h with
        | fault q hle hq hruns hend hquiet =>
          refine .inl ⟨hquiet, ?_⟩
          rintro ⟨-, hunending⟩
          obtain ⟨b, hb, -⟩ := hunending q hle hq
          cases hend.symm.trans hb
        | overran _ hruns hover _ => exact .inr ⟨hover, hlow, hruns⟩

/-! ### The handler -/

/-- The call asked for is made, and what is read lies below `PHYS_BASE` if `clean`. -/
structure Handled (T : Trap) (want : Request → Prop) (clean : Prop) (T' : Trap) : Prop where
  reads : ∃ reads, T'.reads = T.reads ++ reads ∧ ((∀ a ∈ reads, a < physBase) ↔ clean)
  requests : ∃ new : Option Request, T'.requests = T.requests ++ new.toList ∧
    ∀ r, new = some r ↔ want r

variable {want want' : Request → Prop} {clean clean' : Prop}

theorem Handled.congr (h : Handled T want clean T') (hwant : ∀ r, want r ↔ want' r)
    (hclean : clean ↔ clean') : Handled T want' clean' T' := by
  obtain ⟨⟨reads, hreads, hlow⟩, new, hnew, hiff⟩ := h
  exact ⟨⟨reads, hreads, hlow.trans hclean⟩, new, hnew, fun r => (hiff r).trans (hwant r)⟩

/-- What is refused. -/
theorem Quiet.handled (h : Quiet T T') (hwant : ∀ r, ¬want r) (hclean : clean) :
    Handled T want clean T' := by
  obtain ⟨reads, rfl, hlow⟩ := h
  refine ⟨⟨reads, rfl, iff_of_true hlow hclean⟩, none, by simp, fun r => ?_⟩
  exact iff_of_false (fun he => by cases he) (hwant r)

theorem Quiet.trans_handled {T'' : Trap} (h : Quiet T T') (h' : Handled T' want clean T'') :
    Handled T want clean T'' := by
  obtain ⟨rs, rfl, hlow⟩ := h
  obtain ⟨⟨rs', hrs', hiff⟩, new, hnew, hwant⟩ := h'
  refine ⟨⟨rs ++ rs', by rw [hrs', List.append_assoc], ?_⟩, new, hnew, hwant⟩
  rw [← hiff]
  refine ⟨fun h a ha => h a (List.mem_append.2 (.inr ha)), fun h a ha => ?_⟩
  exact (List.mem_append.1 ha).elim (hlow a) (h a)

/-- What is passed on. -/
theorem request_ends {q : Request} (hwant : ∀ r, want r ↔ r = q) (hclean : clean) :
    Ends (request q) T fun _ T' => Handled T want clean T' := by
  have hdone : Handled T want clean { T with requests := T.requests ++ [q] } := by
    refine ⟨⟨[], by simp, by simpa using hclean⟩, some q, rfl, fun r => ?_⟩
    rw [hwant, Option.some.injEq, eq_comm]
  unfold request
  rw [ends_get_bind, ends_set_bind]
  cases T.func q with
  | ok v => exact ends_pure.2 hdone
  | error e => exact ends_stop.2 hdone

/-- A word below `PHYS_BASE`, or no request. -/
theorem Ends.word {α : Type} {a : UInt32} {f : UInt32 → OnTrap α} (hin : T.inSyscall = true)
    (hlow : a.toNat + 4 ≤ physBase.toNat)
    (hnone : T.wordBelow a = none → (∀ r, ¬want r) ∧ clean)
    (hsome : ∀ w T', T.wordBelow a = some w → Quiet T T' →
      Ends (f w) T' fun _ T'' => Handled T' want clean T'') :
    Ends (readWord a >>= f) T fun _ T' => Handled T want clean T' := by
  refine (readWord_ends hin hlow).seq (fun w T₁ h => ?_) fun e T₁ h => ?_
  · exact (hsome w T₁ ((h.2.1 w).1 rfl) h.1).mono fun _ _ h' => h.1.trans_handled h'
  · obtain ⟨hwant, hclean⟩ := hnone (eq_none_of_error h.2.1)
    exact h.1.handled hwant hclean

/-- A buffer below `PHYS_BASE`, or no request. -/
theorem Ends.buffer {α : Type} {p n : UInt32} {f : Unit → OnTrap α}
    (hbad : ¬BufferBelow p n → (∀ r, ¬want r) ∧ clean)
    (hok : BufferBelow p n → Ends (f ()) T fun _ T' => Handled T want clean T') :
    Ends (validateBufferInUserRegion p n >>= f) T fun _ T' => Handled T want clean T' := by
  refine (validateBuffer_ends p n).seq (fun _ T₁ h => ?_) fun e T₁ h => ?_
  · obtain ⟨rfl, hiff, -⟩ := h
    exact hok (hiff.1 rfl)
  · obtain ⟨rfl, hiff, -⟩ := h
    obtain ⟨hwant, hclean⟩ := hbad fun hbelow => by cases hiff.2 hbelow
    exact (Quiet.refl _).handled hwant hclean

theorem wordBelow_of_not_below {a : UInt32} (h : ¬a.toNat + 4 ≤ physBase.toNat) :
    T.wordBelow a = none :=
  if_neg h

theorem bufferBelow_iff {p n : UInt32} (hn : 0 < n.toNat) :
    BufferBelow p n ↔ p.toNat + n.toNat ≤ physBase.toNat := by
  unfold BufferBelow
  rw [UInt32.lt_iff_toNat_lt]
  omega

section Arguments

variable {args : UInt32} (hin : T.inSyscall = true) (hargs : args.toNat + 4 ≤ physBase.toNat)

include hargs in
/-- The arguments do not wrap. -/
theorem toNat_args {k : UInt32} (hk : k.toNat ≤ 12) : (args + k).toNat = args.toNat + k.toNat :=
  toNat_add_of_below (by
    have hbase := physBase_toNat
    omega)

include hin hargs

/-- A call whose argument is one word. -/
theorem requestWord_ends {make : UInt32 → Request} :
    Ends (requestWord args make) T fun _ T' =>
      Handled T (fun r => ∃ w, T.wordBelow (args + 4) = some w ∧ r = make w) True T' := by
  have h4 : (args + 4).toNat = args.toNat + 4 := toNat_args hargs (by decide)
  have hfour : (4 : UInt32).toNat = 4 := rfl
  unfold requestWord
  refine Ends.buffer (fun hbad => ⟨?_, trivial⟩) fun hok => ?_
  · rintro r ⟨w, hw, -⟩
    rw [bufferBelow_iff (by decide), hfour] at hbad
    cases (wordBelow_of_not_below hbad).symm.trans hw
  · rw [bufferBelow_iff (by decide), hfour] at hok
    refine Ends.word hin hok (fun hnone => ⟨?_, trivial⟩) fun w T' hw hq => ?_
    · rintro r ⟨w, hw, -⟩
      cases hnone.symm.trans hw
    · refine request_ends (fun r => ?_) trivial
      simp only [hw, Option.some.injEq, exists_eq_left']

/-- A call whose argument is a string. -/
theorem requestString_ends {make : UInt32 → Request} :
    Ends (requestString args make) T fun _ T' =>
      Handled T (fun r => ∃ p, T.wordBelow (args + 4) = some p ∧ T.StringBelow p ∧ r = make p)
        (¬∃ p, T.wordBelow (args + 4) = some p ∧ T.Unending p) T' := by
  have h4 : (args + 4).toNat = args.toNat + 4 := toNat_args hargs (by decide)
  have hfour : (4 : UInt32).toNat = 4 := rfl
  -- without the word there is no string
  have hnoword : T.wordBelow (args + 4) = none →
      (∀ r, ¬∃ p, T.wordBelow (args + 4) = some p ∧ T.StringBelow p ∧ r = make p) ∧
        ¬∃ p, T.wordBelow (args + 4) = some p ∧ T.Unending p := by
    intro hnone
    rw [hnone]
    simp
  unfold requestString
  refine Ends.buffer (fun hbad => ?_) fun hok => ?_
  · rw [bufferBelow_iff (by decide), hfour] at hbad
    exact hnoword (wordBelow_of_not_below hbad)
  rw [bufferBelow_iff (by decide), hfour] at hok
  refine Ends.word hin hok hnoword fun p T' hp hq => ?_
  simp only [hp, Option.some.injEq, exists_eq_left']
  have hin' : T'.inSyscall = true := hq.inSyscall.trans hin
  have hsame : (T'.StringBelow p ↔ T.StringBelow p) ∧ (T'.Unending p ↔ T.Unending p) := by
    unfold Trap.StringBelow Trap.Unending Trap.Runs
    rw [hq.byte]
    exact ⟨.rfl, .rfl⟩
  refine (validateString_ends hin').seq (fun _ T₁ h => ?_) fun e T₁ h => ?_
  · -- accepted: the word is read again
    have hstring : T'.StringBelow p := h.1.1 rfl
    have hq₁ : Quiet T' T₁ ∧ ¬T'.Unending p := by
      refine h.2.resolve_right ?_
      rintro ⟨-, -, hruns⟩
      obtain ⟨q, hle, hlt, -, hend⟩ := hstring
      obtain ⟨b, hb, hne⟩ := hruns q hle hlt
      exact hne (Option.some.inj (hb.symm.trans hend))
    refine Ends.mono (Q := fun _ T'' => Handled T₁ (fun r => T.StringBelow p ∧ r = make p)
      (¬T.Unending p) T'') ?_ fun _ _ h' => hq₁.1.trans_handled h'
    refine Ends.word (hq₁.1.inSyscall.trans hin') hok (fun hnone => ?_) fun w T₂ hw _ => ?_
    · rw [hq₁.1.wordBelow, hq.wordBelow, hp] at hnone
      cases hnone
    · rw [hq₁.1.wordBelow, hq.wordBelow, hp] at hw
      cases hw
      exact request_ends (fun r => and_iff_right (hsame.1.1 hstring)) fun h => hq₁.2 (hsame.2.2 h)
  · have hno : ∀ r, ¬(T.StringBelow p ∧ r = make p) := fun r hr => by
      cases h.1.2 (hsame.1.2 hr.1)
    rcases h.2 with ⟨hquiet, hending⟩ | ⟨⟨reads, rfl, hmem⟩, hunending⟩
    · exact hquiet.handled hno fun h => hending (hsame.2.2 h)
    · refine ⟨⟨reads, rfl, iff_of_false ?_ fun h => h (hsame.2.1 hunending)⟩, none, by simp, ?_⟩
      · exact fun hlow => absurd (hlow physBase hmem) (by decide)
      · exact fun r => iff_of_false (fun he => by cases he) (hno r)

/-- A call whose arguments are a descriptor and a buffer. -/
theorem requestBuffer_ends {make : UInt32 → UInt32 → UInt32 → Request} :
    Ends (requestBuffer args make) T fun _ T' =>
      Handled T (fun r => ∃ fd p n, T.wordBelow (args + 4) = some fd ∧
        T.wordBelow (args + 8) = some p ∧ T.wordBelow (args + 12) = some n ∧ BufferBelow p n ∧
        r = make fd p n) True T' := by
  have h4 : (args + 4).toNat = args.toNat + 4 := toNat_args hargs (by decide)
  have h8 : (args + 8).toNat = args.toNat + 8 := toNat_args hargs (by decide)
  have h12 : (args + 12).toNat = args.toNat + 12 := toNat_args hargs (by decide)
  have htwelve : (12 : UInt32).toNat = 12 := rfl
  unfold requestBuffer
  refine Ends.buffer (fun hbad => ⟨?_, trivial⟩) fun hok => ?_
  · rintro r ⟨fd, p, n, -, -, hn, -⟩
    rw [bufferBelow_iff (by decide), htwelve] at hbad
    cases (wordBelow_of_not_below (by omega)).symm.trans hn
  rw [bufferBelow_iff (by decide), htwelve] at hok
  refine Ends.word hin (by omega) (fun hnone => ⟨by simp [hnone], trivial⟩) fun p T₁ hp hq₁ => ?_
  have hin₁ := hq₁.inSyscall.trans hin
  refine Ends.word hin₁ (by omega) (fun hnone => ?_) fun n T₂ hn hq₂ => ?_
  · rw [hq₁.wordBelow] at hnone
    exact ⟨by simp [hnone], trivial⟩
  rw [hq₁.wordBelow] at hn
  have hq := hq₁.trans hq₂
  refine Ends.buffer (fun hbad => ⟨?_, trivial⟩) fun hbelow => ?_
  · rintro r ⟨fd, p', n', -, hp', hn', hbelow, -⟩
    rw [hp] at hp'
    rw [hn] at hn'
    cases hp'
    cases hn'
    exact hbad hbelow
  -- the three words are read again
  refine Ends.word (hq₂.inSyscall.trans hin₁) (by omega) (fun hnone => ?_) fun fd T₃ hfd hq₃ => ?_
  · rw [hq.wordBelow] at hnone
    exact ⟨by simp [hnone], trivial⟩
  rw [hq.wordBelow] at hfd
  have hq' := hq.trans hq₃
  refine Ends.word (hq'.inSyscall.trans hin) (by omega) (fun hnone => ?_) fun p' T₄ hp' hq₄ => ?_
  · rw [hq'.wordBelow, hp] at hnone
    cases hnone
  rw [hq'.wordBelow, hp] at hp'
  cases hp'
  have hq'' := hq'.trans hq₄
  refine Ends.word (hq''.inSyscall.trans hin) (by omega) (fun hnone => ?_) fun n' T₅ hn' _ => ?_
  · rw [hq''.wordBelow, hn] at hnone
    cases hnone
  rw [hq''.wordBelow, hn] at hn'
  cases hn'
  refine request_ends (fun r => ?_) trivial
  simp only [hfd, hp, hn, Option.some.injEq, exists_and_left, exists_eq_left', and_iff_right hbelow]

end Arguments

/-- What follows does not change what was asked. -/
theorem Ends.andThen {α β : Type} {x : OnTrap α} {f : α → OnTrap β} {P : Trap → Prop}
    (h : Ends x T fun _ T' => P T') (hf : ∀ a T', P T' → Ends (f a) T' fun _ T'' => P T'') :
    Ends (x >>= f) T fun _ T' => P T' :=
  Ends.seq h (fun a T' hP => hf a T' hP) fun _ _ hP => hP

theorem setEax_ends {x : OnTrap UInt32} (h : Ends x T fun _ T' => Handled T want clean T') :
    Ends (setEax x) T fun _ T' => Handled T want clean T' :=
  Ends.andThen h fun _ _ hh => ends_modify.2 ⟨hh.reads, hh.requests⟩

/-- **The cases of the `switch`.** -/
theorem dispatch_ends {nr : UInt32} (hin : T.inSyscall = true)
    (hargs : T.esp.toNat + 4 ≤ physBase.toNat) (hnr : T.wordBelow T.esp = some nr) :
    Ends (dispatch T.esp nr) T fun _ T' => Handled T T.Asks (¬T.Overruns) T' := by
  have hclean : nr ≠ 6 → (True ↔ ¬T.Overruns) := fun hne => by
    simp [Trap.Overruns, hnr, hne]
  unfold dispatch
  rw [ends_get_bind]
  split_ifs with h1 h6 h9 h8 h12 hsbrk
  · refine Ends.andThen ((requestWord_ends hin hargs).mono fun _ _ h => h.congr (fun r => ?_)
      (hclean (by simp [h1]))) fun _ _ h => ends_stop.2 h
    subst h1
    cases r <;> grind [Trap.Asks]
  · refine setEax_ends ((requestString_ends hin hargs).mono fun _ _ h => h.congr (fun r => ?_) ?_)
    · subst h6
      cases r <;> grind [Trap.Asks]
    · simp [Trap.Overruns, hnr, h6]
  · refine setEax_ends ((requestBuffer_ends hin hargs).mono fun _ _ h => h.congr (fun r => ?_)
      (hclean (by simp [h9])))
    subst h9
    cases r <;> grind [Trap.Asks]
  · refine setEax_ends ((requestBuffer_ends hin hargs).mono fun _ _ h => h.congr (fun r => ?_)
      (hclean (by simp [h8])))
    subst h8
    cases r <;> grind [Trap.Asks]
  · refine Ends.andThen ((requestWord_ends hin hargs).mono fun _ _ h => h.congr (fun r => ?_)
      (hclean (by simp [h12]))) fun _ _ h => ends_pure.2 h
    subst h12
    cases r <;> grind [Trap.Asks]
  · refine setEax_ends ((requestWord_ends hin hargs).mono fun _ _ h => h.congr (fun r => ?_)
      (hclean h6))
    cases r <;> grind [Trap.Asks]
  · have hno : ∀ r, ¬T.Asks r := fun r => by
      cases r <;> grind [Trap.Asks]
    refine Ends.word hin hargs (fun hnone => by cases hnone.symm.trans hnr) fun _ T' _ _ => ?_
    exact ends_pure.2 ((Quiet.refl T').handled hno ((hclean h6).1 trivial))

/-- **`syscall_handler`** makes the call asked for, and reads below `PHYS_BASE` unless a
string overruns it. -/
theorem syscallHandler_ends (T : Trap) :
    Ends syscallHandler T fun _ T' => Handled T T.Asks (¬T.Overruns) T' := by
  have hfour : (4 : UInt32).toNat = 4 := rfl
  have hnone : T.wordBelow T.esp = none → (∀ r, ¬T.Asks r) ∧ ¬T.Overruns := fun h =>
    ⟨fun r => by cases r <;> simp [Trap.Asks, h], by simp [Trap.Overruns, h]⟩
  unfold syscallHandler
  rw [ends_get_bind]
  dsimp only
  -- the thread is in a system call from here on
  set T₀ : Trap := { T with inSyscall := true } with hT₀
  suffices h : Ends (do
      validateBufferInUserRegion T.esp 4
      let nr ← readWord T.esp
      dispatch T.esp nr
      modify fun T => { T with inSyscall := false }) T₀
      fun _ T' => Handled T₀ T.Asks (¬T.Overruns) T' from
    h.mono fun _ _ h => ⟨h.reads, h.requests⟩
  refine Ends.buffer (fun hbad => ?_) fun hok => ?_
  · rw [bufferBelow_iff (by decide), hfour] at hbad
    exact hnone (wordBelow_of_not_below hbad)
  rw [bufferBelow_iff (by decide), hfour] at hok
  refine Ends.word rfl hok hnone fun nr T' hnr hq => ?_
  refine Ends.andThen (P := Handled T' T.Asks (¬T.Overruns)) ?_ fun _ _ h =>
    ends_modify.2 ⟨h.reads, h.requests⟩
  obtain ⟨reads, rfl, -⟩ := hq
  exact dispatch_ends (T := { T₀ with reads := T₀.reads ++ reads }) rfl hok hnr

theorem AgreeBelow.bytes {U : Trap} (h : AgreeBelow T U) {n : ℕ} {a : UInt32}
    (hlow : a.toNat + n ≤ physBase.toNat) : U.bytes n a = T.bytes n a := by
  induction n generalizing a with
  | zero => rfl
  | succ n ih =>
    have hbase := physBase_toNat
    have hone : (1 : UInt32).toNat = 1 := rfl
    have hsucc : (a + 1).toNat = a.toNat + 1 := toNat_add_of_below (by omega)
    have ha : a < physBase := by
      rw [UInt32.lt_iff_toNat_lt]
      omega
    simp only [Trap.bytes, h.memory a ha, ih (a := a + 1) (by omega)]

theorem AgreeBelow.wordBelow {U : Trap} (h : AgreeBelow T U) (a : UInt32) :
    U.wordBelow a = T.wordBelow a := by
  unfold Trap.wordBelow
  split_ifs with hlow
  · rw [h.bytes hlow]
  · rfl

theorem AgreeBelow.byte {U : Trap} (h : AgreeBelow T U) {k : ℕ} (hk : k < physBase.toNat) :
    U.byte k = T.byte k := by
  refine h.memory _ ?_
  have hbase := physBase_toNat
  rw [UInt32.lt_iff_toNat_lt, UInt32.toNat_ofNat_of_lt' (by
    have hsize : UInt32.size = 2 ^ 32 := rfl
    omega)]
  exact hk

theorem AgreeBelow.stringBelow {U : Trap} (h : AgreeBelow T U) (p : UInt32) :
    U.StringBelow p ↔ T.StringBelow p := by
  unfold Trap.StringBelow Trap.Runs
  refine exists_congr fun q => and_congr_right fun _ => and_congr_right fun hq => ?_
  rw [h.byte hq]
  refine and_congr_left fun _ => forall_congr' fun k => forall_congr' fun _ => ?_
  refine forall_congr' fun hk => ?_
  rw [h.byte (Nat.lt_trans hk hq)]

/-- **What is asked for** does not depend on memory above `PHYS_BASE`. -/
theorem AgreeBelow.asks {U : Trap} (h : AgreeBelow T U) (r : Request) : U.Asks r ↔ T.Asks r := by
  cases r <;> simp only [Trap.Asks, h.esp, h.sysSbrk, h.wordBelow, h.stringBelow]

/-- A string that overruns is read beyond `PHYS_BASE`. -/
theorem Trap.Confined.not_overruns (h : T.Confined) : ¬T.Overruns := by
  obtain ⟨r, T', hrun, ⟨reads, hreads, hlow⟩, -⟩ := syscallHandler_ends T
  obtain ⟨reads', hreads', hlow'⟩ := h.reads.of_run hrun
  rw [hreads] at hreads'
  rw [← hlow, List.append_cancel_left hreads']
  exact hlow'

/-- **System calls stay below `PHYS_BASE`** but for strings that do not end there. -/
theorem syscallHandler_confined (T : Trap) : T.Confined ↔ ¬T.Overruns := by
  constructor
  · exact Trap.Confined.not_overruns
  · intro hclean
    obtain ⟨r, T', hrun, ⟨reads, hreads, hlow⟩, new, hnew, hasks⟩ := syscallHandler_ends T
    refine ⟨⟨r, T', hrun, reads, hreads, hlow.2 hclean⟩, ⟨r, T', hrun, new, hnew, hasks⟩,
      fun p n => ?_, fun p => ?_, fun U hU => ⟨r, T', hrun, ?_⟩⟩
    · obtain ⟨r, T', hrun, -, hiff, -⟩ := validateBuffer_ends (T := { T with inSyscall := true }) p n
      exact ⟨fun h => hiff.1 (h.of_run hrun), fun h => ⟨r, T', hrun, hiff.2 h⟩⟩
    · obtain ⟨r, T', hrun, hiff, -⟩ :=
        validateString_ends (T := { T with inSyscall := true }) (p := p) rfl
      exact ⟨fun h => hiff.1 (h.of_run hrun), fun h => ⟨r, T', hrun, hiff.2 h⟩⟩
    · refine (syscallHandler_ends U).mono fun _ U' h => ?_
      obtain ⟨new', hnew', hasks'⟩ := h.requests
      have hsame : new' = new := Option.ext fun q =>
        (hasks' q).trans ((hU.asks q).trans (hasks q).symm)
      exact ⟨new.toList, hnew, hsame ▸ hnew'⟩

/-- A process that opens a file whose name is the last byte of user memory. -/
def lastByteTrap : Trap where
  esp := 0xbfff0000
  eax := 0
  inSyscall := false
  memory a :=
    if a = 0xbfff0000 then some 6
    else if a = 0xbfff0004 ∨ a = 0xbfff0005 ∨ a = 0xbfff0006 then some 0xff
    else if a = 0xbfff0007 then some 0xbf
    else if a = 0xbfffffff then some 97
    else some 0
  sysSbrk := 13
  func _ := .ok 0
  reads := []
  requests := []

/-- The byte behind the last one of the name is the kernel's. -/
theorem not_confined : ¬∀ T : Trap, T.Confined := by
  intro h
  refine (h lastByteTrap).not_overruns ⟨by decide, 0xbfffffff, by decide, by decide,
    fun k hk hk' => ?_⟩
  have hlow : (0xbfffffff : UInt32).toNat = 0xbfffffff := rfl
  have hhigh := physBase_toNat
  obtain rfl : k = 0xbfffffff := by omega
  exact ⟨97, by decide, by decide⟩

end HwMemory
end CS162

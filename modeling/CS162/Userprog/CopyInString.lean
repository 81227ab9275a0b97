/-
# Copying a string from user memory

`projects1-3/src/userprog/syscall.c`, lines 110-116 and 136-160: `get_user` and `copy_in_string`.

The loop stops at addresses from `PGSIZE` on, where `copy_in` has `PHYS_BASE`, and believes what
`get_user` returns, a variable that nothing was assigned to.  `last` is where a string of a process
is decided: at its terminator, its first byte that is no mapped user memory or its byte number
4095.  The call does what it should if the string is good up to there and the loop gets there, and
if neither is so (`copyInString_copies_iff`).
-/

import CS162.Userprog.Syscall

namespace CS162
namespace Userprog

open CS162.Basis

/-- The first number below `n` with `p`, or else `n`. -/
def firstBelow (n : ℕ) (p : ℕ → Bool) : ℕ := ((List.range n).find? p).getD n

theorem firstBelow_le (n : ℕ) (p : ℕ → Bool) : firstBelow n p ≤ n := by
  unfold firstBelow
  cases h : (List.range n).find? p with
  | none => exact le_rfl
  | some j => exact (List.mem_range.1 (List.mem_of_find?_eq_some h)).le

theorem of_lt_firstBelow {n i : ℕ} {p : ℕ → Bool} (hi : i < firstBelow n p) : p i = false := by
  unfold firstBelow at hi
  cases h : (List.range n).find? p with
  | none =>
    rw [h] at hi
    have hnone := List.find?_eq_none.1 h i (List.mem_range.2 hi)
    simpa using hnone
  | some j =>
    rw [h] at hi
    obtain ⟨-, hj, hbefore⟩ := List.find?_range_eq_some.1 h
    simpa using hbefore i hi

theorem at_firstBelow {n : ℕ} {p : ℕ → Bool} (hlt : firstBelow n p < n) :
    p (firstBelow n p) = true := by
  unfold firstBelow at hlt ⊢
  cases h : (List.range n).find? p with
  | none =>
    rw [h] at hlt
    exact absurd hlt (lt_irrefl n)
  | some j => exact List.find?_some h

/-- What `copy_in_string` works on. -/
structure Copying where
  /-- The process's side. -/
  trap : Trap
  /-- Whether a page is available. -/
  available : Bool
  /-- The pages taken and not given back. -/
  live : ℕ
  /-- What the page `ks` holds. -/
  ks : ℕ → UInt8

abbrev OnCopying := Call Copying

/-- A call on the process's side. -/
def onUser {α : Type} (x : OnTrap α) : OnCopying α :=
  onPart Copying.trap (fun C T => { C with trap := T }) x

/-- `palloc_free_page (ks)` and `process_exit`. -/
def freeAndExit : OnCopying Unit := do
  modify fun C => { C with live := C.live - 1 }
  stop .exit

/-- The loop of `copy_in_string` from the byte `length` on, at the address `us`, and the two
statements behind it. -/
def copyLoop : ℕ → ℕ → UInt32 → OnCopying Unit
  | 0, _, _ => modify fun C => { C with ks := Function.update C.ks 4095 0 }
  | turns + 1, length, us =>
    if pgsize ≤ us then freeAndExit else do
    let (byte, ok) ← onUser (getUser us)
    modify fun C => { C with ks := Function.update C.ks length byte }
    if ok = false then freeAndExit else
    if byte = 0 then return () else
    copyLoop turns (length + 1) (us + 1)

/-- `copy_in_string`: where it returns, it returns the page `ks`. -/
def copyInString (us : UInt32) : OnCopying Unit := do
  let C ← get
  if C.available = false then stop .exit else
  set { C with live := C.live + 1 }
  copyLoop 4096 0 us

/-! ### What the call is to do -/

section Spec

variable (C : Copying) (us : UInt32)

/-- A byte is mapped user memory. -/
def Copying.good (i : ℕ) : Bool :=
  decide (us.toNat + i < physBase.toNat) && C.trap.mapped (us + UInt32.ofNat i)

/-- A byte of the process's. -/
def Copying.byte (i : ℕ) : UInt8 := C.trap.user (us + UInt32.ofNat i)

/-- The string at `us`, cut to 4095 bytes, has `k` bytes, and its bytes up to the terminator, or the
first 4096, are mapped user memory. -/
structure StringOf (k : ℕ) : Prop where
  room : k < 4096
  good : ∀ i ≤ k, C.good us i = true
  bytes : ∀ i < k, C.byte us i ≠ 0
  ends : C.byte us k = 0 ∨ k = 4095

/-- The page holds the string, if it is one; otherwise the page is freed and the process ends.
Nothing from `PHYS_BASE` on is read. -/
def Copies : Prop :=
  (∀ k, StringOf C us k → Ends (copyInString us) C fun r C' => r = .ok () ∧ C'.live = C.live + 1 ∧
    (∀ i < k, C'.ks i = C.byte us i) ∧ C'.ks k = 0) ∧
  ((¬∃ k, StringOf C us k) → Ends (copyInString us) C fun r C' =>
    r = .error .exit ∧ C'.live = C.live) ∧
  Ends (copyInString us) C fun _ C' =>
    ∃ reads, C'.trap.reads = C.trap.reads ++ reads ∧ ∀ a ∈ reads, a < physBase

/-- Where the string is decided. -/
@[irreducible] def Copying.last : ℕ := firstBelow 4095 fun i => !C.good us i || C.byte us i == 0

/-- The loop goes past the test of the address and `get_user` returns true. -/
def Copying.Passes (i : ℕ) : Prop := us.toNat + i < 4096 ∧ C.trap.leftover i = true

end Spec

variable {C C₀ : Copying} {us : UInt32} {i k turns : ℕ}

theorem last_eq (C : Copying) (us : UInt32) :
    C.last us = firstBelow 4095 fun i => !C.good us i || C.byte us i == 0 := by
  unfold Copying.last
  rfl

theorem last_lt (C : Copying) (us : UInt32) : C.last us < 4096 := by
  rw [last_eq]
  exact Nat.lt_succ_of_le (firstBelow_le 4095 _)

/-- Before the last byte there are good ones that do not end the string. -/
theorem before_last (hi : i < C.last us) : C.good us i = true ∧ C.byte us i ≠ 0 := by
  rw [last_eq] at hi
  simpa using of_lt_firstBelow hi

/-- The last byte is not good, or ends the string, or is the last that has room. -/
theorem at_last (hlt : C.last us < 4095) :
    C.good us (C.last us) = false ∨ C.byte us (C.last us) = 0 := by
  rw [last_eq] at hlt
  have hdec := at_firstBelow hlt
  rw [← last_eq] at hdec
  simpa using hdec

/-- There is a string exactly if the last byte is good, and it ends there. -/
theorem stringOf_iff : StringOf C us k ↔ k = C.last us ∧ C.good us k = true := by
  constructor
  · rintro ⟨hroom, hgood, hbytes, hends⟩
    refine ⟨?_, hgood k le_rfl⟩
    have hlast := last_lt C us
    rcases lt_trichotomy k (C.last us) with hlt | heq | hgt
    · obtain ⟨-, hne⟩ := before_last hlt
      rcases hends with hzero | hfull
      · exact absurd hzero hne
      · omega
    · exact heq
    · have hlt : C.last us < 4095 := by omega
      rcases at_last hlt with hbad | hzero
      · rw [hgood _ hgt.le] at hbad
        cases hbad
      · exact absurd hzero (hbytes _ hgt)
  · rintro ⟨hk, hgood⟩
    have hlast : k < 4096 := hk ▸ last_lt C us
    have hbefore : ∀ i < k, C.good us i = true ∧ C.byte us i ≠ 0 := fun i hi =>
      before_last (hk ▸ hi)
    have hat : k < 4095 → C.good us k = false ∨ C.byte us k = 0 := fun hlt =>
      hk ▸ at_last (hk ▸ hlt)
    clear hk
    refine ⟨hlast, fun i hi => ?_, fun i hi => (hbefore i hi).2, ?_⟩
    · rcases hi.lt_or_eq with hi | rfl
      · exact (hbefore i hi).1
      · exact hgood
    · by_cases hlt : k < 4095
      · rcases hat hlt with hbad | hzero
        · rw [hgood] at hbad
          cases hbad
        · exact .inl hzero
      · exact .inr (by omega)

/-! ### What the call does -/

theorem onUser_seq {α β : Type} {x : OnTrap α} {f : α → OnCopying β} {a : α} {T : Trap}
    {Q : Except Stop β → Copying → Prop} (hx : (ExceptT.run x).run C.trap = some (.ok a, T))
    (hf : Ends (f a) { C with trap := T } Q) : Ends (onUser x >>= f) C Q := by
  have hends : Ends (onUser x) C fun r C' => r = .ok a ∧ C' = { C with trap := T } :=
    Ends.onPart _ _ ⟨.ok a, T, hx, rfl, rfl⟩
  refine hends.seq (fun b C' h => ?_) fun e C' h => ?_
  · obtain ⟨hb, rfl⟩ := h
    obtain rfl := Except.ok.inj hb
    exact hf
  · cases h.1

/-- After `i` bytes of the string at `us`. -/
structure Copied (C₀ : Copying) (us : UInt32) (i : ℕ) (C : Copying) : Prop where
  user : C.trap.user = C₀.trap.user
  mapped : C.trap.mapped = C₀.trap.mapped
  leftover : ∀ n, C.trap.leftover n = C₀.trap.leftover (n + i)
  live : C.live = C₀.live + 1
  ks : ∀ j < i, C.ks j = C₀.byte us j
  passes : ∀ j < i, C₀.Passes us j
  reads : ∃ reads, C.trap.reads = C₀.trap.reads ++ reads ∧ ∀ a ∈ reads, a < physBase

theorem copied_start (C : Copying) (us : UInt32) : Copied C us 0 { C with live := C.live + 1 } :=
  ⟨rfl, rfl, fun _ => rfl, rfl, nofun, nofun, [], (List.append_nil _).symm, nofun⟩

/-- The address of a byte that the loop comes to. -/
theorem Copied.address (h : Copied C₀ us i C) (hi : i < 4096) :
    (us + UInt32.ofNat i).toNat = us.toNat + i := by
  have hus : i = 0 ∨ us.toNat < 4096 := by
    cases i with
    | zero => exact .inl rfl
    | succ i =>
      have hpass := (h.passes 0 (Nat.succ_pos i)).1
      exact .inr (by omega)
  have hlt := us.toNat_lt
  rw [UInt32.toNat_add, UInt32.toNat_ofNat']
  rcases hus with rfl | hus
  · simp
  · omega

/-- The state in which a byte has been fetched. -/
def Copying.fetched (C : Copying) (us : UInt32) (i : ℕ) : Copying :=
  { C with
    trap := { C.trap with
      reads := C.trap.reads ++ [us + UInt32.ofNat i], leftover := fun n => C.trap.leftover (n + 1) }
    ks := Function.update C.ks i
      (if C.trap.mapped (us + UInt32.ofNat i) then C.byte us i else 0) }

theorem Copied.fetched_reads (h : Copied C₀ us i C) (hi : i < 4096) (hlow : us.toNat + i < 4096) :
    ∃ reads, (C.fetched us i).trap.reads = C₀.trap.reads ++ reads ∧ ∀ a ∈ reads, a < physBase := by
  obtain ⟨reads, hreads, hbelow⟩ := h.reads
  refine ⟨reads ++ [us + UInt32.ofNat i], ?_, fun a ha => ?_⟩
  · show C.trap.reads ++ _ = _
    rw [hreads, List.append_assoc]
  · rcases List.mem_append.1 ha with ha | ha
    · exact hbelow a ha
    · rw [List.mem_singleton.1 ha, UInt32.lt_iff_toNat_lt, h.address hi]
      have hbase : physBase.toNat = 3221225472 := rfl
      omega

/-- The loop has passed a good byte. -/
theorem Copied.step (h : Copied C₀ us i C) (hi : i < 4096) (hpass : C₀.Passes us i)
    (hgood : C₀.good us i = true) : Copied C₀ us (i + 1) (C.fetched us i) := by
  have hmapped : C.trap.mapped (us + UInt32.ofNat i) = true := by
    rw [h.mapped]
    exact (Bool.and_eq_true _ _ ▸ hgood).2
  refine ⟨h.user, h.mapped, fun n => ?_, h.live, fun j hj => ?_, fun j hj => ?_,
    h.fetched_reads hi hpass.1⟩
  · show C.trap.leftover (n + 1) = _
    rw [h.leftover, Nat.add_assoc, Nat.add_comm 1]
  · show Function.update C.ks i _ j = _
    by_cases hji : j = i
    · rw [hji, Function.update_self, if_pos hmapped]
      show C.trap.user _ = _
      rw [h.user]
      rfl
    · rw [Function.update_of_ne hji]
      exact h.ks j (by omega)
  · rcases Nat.lt_succ_iff_lt_or_eq.1 hj with hj | rfl
    · exact h.passes j hj
    · exact hpass

/-- How the call ends: with the string up to the last byte in the page if the loop passes all of
it, and otherwise with the page freed. -/
structure Outcome (C₀ : Copying) (us : UInt32) (r : Except Stop Unit) (C : Copying) : Prop where
  reads : ∃ reads, C.trap.reads = C₀.trap.reads ++ reads ∧ ∀ a ∈ reads, a < physBase
  returns : (∀ j ≤ C₀.last us, C₀.Passes us j) → r = .ok () ∧ C.live = C₀.live + 1 ∧
    (∀ j < C₀.last us, C.ks j = C₀.byte us j) ∧ C.ks (C₀.last us) = 0
  exits : (¬∀ j ≤ C₀.last us, C₀.Passes us j) → r = .error .exit ∧ C.live = C₀.live

/-- The page is freed where the loop does not pass a byte. -/
theorem freeAndExit_ends (hi : i ≤ C₀.last us) (hpass : ¬C₀.Passes us i)
    (hlive : C.live = C₀.live + 1)
    (hreads : ∃ reads, C.trap.reads = C₀.trap.reads ++ reads ∧ ∀ a ∈ reads, a < physBase) :
    Ends freeAndExit C (Outcome C₀ us) := by
  unfold freeAndExit
  rw [ends_modify_bind, ends_stop]
  refine ⟨hreads, fun hall => absurd (hall i hi) hpass, fun _ => ⟨rfl, ?_⟩⟩
  show C.live - 1 = C₀.live
  omega

/-- The page after the last byte, which has become 0. -/
theorem Copied.outcome (h : Copied C₀ us (C₀.last us) C) (hpass : C₀.Passes us (C₀.last us))
    {C' : Copying} (hlive : C'.live = C.live) (hks : ∀ j < C₀.last us, C'.ks j = C.ks j)
    (hzero : C'.ks (C₀.last us) = 0)
    (hreads : ∃ reads, C'.trap.reads = C₀.trap.reads ++ reads ∧ ∀ a ∈ reads, a < physBase) :
    Outcome C₀ us (.ok ()) C' := by
  have hall : ∀ j ≤ C₀.last us, C₀.Passes us j := fun j hj => by
    rcases hj.lt_or_eq with hj | hj
    · exact h.passes j hj
    · exact hj ▸ hpass
  exact ⟨hreads, fun _ => ⟨rfl, hlive.trans h.live, fun j hj => (hks j hj).trans (h.ks j hj), hzero⟩,
    fun hno => absurd hall hno⟩

/-- **The loop of `copy_in_string`.** -/
theorem copyLoop_ends (h : Copied C₀ us i C) (hi : i ≤ C₀.last us) (hturns : turns + i = 4096) :
    Ends (copyLoop turns i (us + UInt32.ofNat i)) C (Outcome C₀ us) := by
  have hlast := last_lt C₀ us
  induction turns generalizing i C with
  | zero => omega
  | succ turns ih =>
    have hi' : i < 4096 := by omega
    have haddress := h.address hi'
    have hpgsize : pgsize.toNat = 4096 := rfl
    unfold copyLoop
    by_cases hlow : us.toNat + i < 4096
    · rw [if_neg (by rw [UInt32.le_iff_toNat_le]; omega)]
      refine onUser_seq (a := (if C.trap.mapped (us + UInt32.ofNat i) then C.byte us i else 0,
        C.trap.leftover 0)) rfl ?_
      rw [ends_modify_bind]
      dsimp only
      have hreads := h.fetched_reads hi' hlow
      have hleftover : C.trap.leftover 0 = C₀.trap.leftover i := by rw [h.leftover, Nat.zero_add]
      rw [hleftover]
      change Ends _ (C.fetched us i) _
      by_cases hok : C₀.trap.leftover i = true
      · have hpass : C₀.Passes us i := ⟨hlow, hok⟩
        have hbase : physBase.toNat = 3221225472 := rfl
        have hmapped : C.trap.mapped (us + UInt32.ofNat i) = C₀.good us i := by
          have hbelow : us.toNat + i < physBase.toNat := by omega
          unfold Copying.good
          rw [decide_eq_true hbelow, Bool.true_and, h.mapped]
        have hbyte : C.byte us i = C₀.byte us i := congrFun h.user _
        rw [hok, if_neg nofun, hmapped, hbyte]
        rcases hi.lt_or_eq with hlt | heq
        · -- the string goes on
          obtain ⟨hgood, hne⟩ := before_last hlt
          rw [hgood, if_pos rfl, if_neg hne, UInt32.add_assoc]
          have hone : UInt32.ofNat i + 1 = UInt32.ofNat (i + 1) := by
            rw [UInt32.ofNat_add]
            rfl
          rw [hone]
          exact ih (h.step hi' hpass hgood) hlt (by omega)
        · rw [heq] at h hpass hi' hreads
          have hold : ∀ j < C₀.last us, (C.fetched us (C₀.last us)).ks j = C.ks j := fun j hj =>
            Function.update_of_ne hj.ne _ _
          by_cases hzero : (if C₀.good us i = true then C₀.byte us i else 0) = 0
          · -- it ends with this byte
            rw [if_pos hzero, heq]
            refine ends_pure.2 (h.outcome hpass rfl hold ?_ hreads)
            show Function.update C.ks _ _ _ = _
            rw [Function.update_self, ← heq, hmapped, hbyte]
            exact hzero
          · -- it is cut
            rw [if_neg hzero]
            have hgood : C₀.good us (C₀.last us) = true := by
              rw [← heq]
              by_contra hbad
              exact hzero (if_neg hbad)
            have hne : C₀.byte us (C₀.last us) ≠ 0 := by
              rw [heq, if_pos hgood] at hzero
              exact hzero
            have hfull : C₀.last us = 4095 := by
              by_contra hlt
              have hend : C₀.good us (C₀.last us) = false ∨ C₀.byte us (C₀.last us) = 0 :=
                at_last (by omega)
              rcases hend with hbad | hzero
              · rw [hgood] at hbad
                cases hbad
              · exact hne hzero
            have hnone : turns = 0 := by omega
            rw [hnone, heq]
            refine ends_modify.2 (h.outcome hpass rfl (fun j hj => ?_) ?_ hreads)
            · show Function.update (C.fetched us (C₀.last us)).ks 4095 0 j = _
              rw [Function.update_of_ne (by omega)]
              exact hold j hj
            · show Function.update (C.fetched us (C₀.last us)).ks 4095 0 _ = 0
              rw [hfull, Function.update_self]
      · rw [Bool.not_eq_true] at hok
        rw [hok, if_pos rfl]
        refine freeAndExit_ends hi (fun hpass => ?_) h.live hreads
        rw [hpass.2] at hok
        cases hok
    · rw [if_pos (by rw [UInt32.le_iff_toNat_le]; omega)]
      exact freeAndExit_ends hi (fun hpass => hlow hpass.1) h.live h.reads

/-- **`copy_in_string`** with a page available. -/
theorem copyInString_ends (h : C.available = true) :
    Ends (copyInString us) C (Outcome C us) := by
  unfold copyInString
  rw [ends_get_bind, if_neg (by simp [h]), ends_set_bind]
  have hzero : us + UInt32.ofNat 0 = us := UInt32.add_zero us
  have hturns : 4096 + 0 = 4096 := rfl
  have hloop := copyLoop_ends (copied_start C us) (Nat.zero_le _) hturns
  rwa [hzero] at hloop

/-- **The call does what it should** exactly if the last byte of the string is good and the loop
passes up to it, or neither. -/
theorem copyInString_copies_iff (h : C.available = true) :
    Copies C us ↔ (C.good us (C.last us) = true ↔ ∀ i ≤ C.last us, C.Passes us i) := by
  have hends : Ends (copyInString us) C (Outcome C us) := copyInString_ends h
  obtain ⟨r, C', hrun, hout⟩ := hends
  constructor
  · rintro ⟨hstring, hnone, -⟩
    constructor
    · intro hgood
      by_contra hno
      have hok := ((hstring _ (stringOf_iff.2 ⟨rfl, hgood⟩)).of_run hrun).1
      rw [(hout.exits hno).1] at hok
      cases hok
    · intro hall
      by_contra hbad
      have hno : ¬∃ k, StringOf C us k := fun ⟨k, hk⟩ => by
        obtain ⟨rfl, hgood⟩ := stringOf_iff.1 hk
        exact hbad hgood
      have hexit := ((hnone hno).of_run hrun).1
      rw [(hout.returns hall).1] at hexit
      cases hexit
  · intro hiff
    refine ⟨fun k hk => ?_, fun hno => ?_, r, C', hrun, hout.reads⟩
    · obtain ⟨hk, hgood⟩ := stringOf_iff.1 hk
      rw [hk] at hgood ⊢
      exact ⟨r, C', hrun, hout.returns (hiff.1 hgood)⟩
    · refine ⟨r, C', hrun, hout.exits fun hall => hno ⟨_, stringOf_iff.2 ⟨rfl, hiff.2 hall⟩⟩⟩

/-- A process with the string `"a"` at its code segment, 0x08048000, and nothing else but zeros;
`mapped` says whether this memory is there. -/
def stringTrap (mapped : Bool) : Trap where
  esp := 0xbffffff0
  eax := 0
  user a := if a = 0x8048000 then 97 else 0
  mapped _ := mapped
  leftover _ := true
  func _ _ := .error .exit
  reads := []
  invoked := []

def stringCopying (mapped : Bool) : Copying := ⟨stringTrap mapped, true, 0, fun _ => 0⟩

/-- The loop does not get past an address that a process uses. -/
theorem stringCopying_not_passes (mapped : Bool) : ¬(stringCopying mapped).Passes 0x8048000 0 := by
  rintro ⟨hlow, -⟩
  have haddress : (0x8048000 : UInt32).toNat = 134512640 := rfl
  rw [haddress] at hlow
  omega

/-- Where nothing is mapped the process is ended, as it should be. -/
theorem copyInString_copies_iff_unmapped : Copies (stringCopying false) 0x8048000 := by
  refine (copyInString_copies_iff rfl).2 ⟨fun hgood => ?_, fun hall => ?_⟩
  · unfold Copying.good at hgood
    exact absurd (Bool.and_eq_true _ _ ▸ hgood).2 Bool.false_ne_true
  · exact absurd (hall 0 (Nat.zero_le _)) (stringCopying_not_passes false)

/-- The string `"a"` is refused. -/
theorem not_copies : ¬∀ C us, C.available = true → Copies C us := by
  intro h
  have haddress : (0x8048000 : UInt32).toNat = 134512640 := rfl
  have hbase : physBase.toNat = 3221225472 := rfl
  have hstring : StringOf (stringCopying true) 0x8048000 1 := by
    refine ⟨by omega, fun i hi => ?_, fun i hi => ?_, .inl (by decide)⟩
    · unfold Copying.good
      rw [Bool.and_eq_true, decide_eq_true_iff, haddress, hbase]
      exact ⟨by omega, rfl⟩
    · obtain rfl : i = 0 := by omega
      decide
  have hends : Ends (copyInString 0x8048000) (stringCopying true)
      (Outcome (stringCopying true) 0x8048000) := copyInString_ends rfl
  obtain ⟨r, C', hrun, hout⟩ := hends
  obtain ⟨hr, -⟩ := ((h (stringCopying true) 0x8048000 rfl).1 1 hstring).of_run hrun
  have hexit := hout.exits fun hall => stringCopying_not_passes true (hall 0 (Nat.zero_le _))
  rw [hexit.1] at hr
  cases hr

end Userprog
end CS162

/-
# What `sbrk` may reach

`hw-memory/pintos/src/userprog/syscall.c`, lines 81-116, for any increment.

The code does not compare the new break with the start of the heap or with
`PHYS_BASE`.  `sbrk_staysInHeap` says exactly when a call ends with a break between
the two and without taking a page from outside the heap: a process that gives back
more than its heap loses the pages below it.
-/

import CS162.HwMemory.Sbrk

namespace CS162
namespace HwMemory

open CS162.Basis CS162.Userprog

/-- A process each of whose pages has a frame in use, of its own. -/
structure UserProcess extends Process where
  backed : Backed toProcess

/-- The pages of `[round_up (start), round_up (break))`. -/
def Process.firstPage (P : Process) : ℕ := (P.heapStart.toNat + 4095) / 4096
def Process.lastPage (P : Process) : ℕ := (P.heapEnd.toNat + 4095) / 4096
def Process.HeapPage (P : Process) (q : ℕ) : Prop := P.firstPage ≤ q ∧ q < P.lastPage

/-- The call ends with the break in its bounds.  Pages outside the heap keep their
frames, and what is freed is a frame of the heap or one that the call itself took. -/
def StaysInHeap (P : Process) (increment : UInt32) : Prop :=
  Returns (syscallSbrk increment) P fun _ P' =>
    P'.heapStart ≤ P'.heapEnd ∧ P'.heapEnd ≤ physBase ∧
    (∀ q f, P.pagedir q = some f → ¬P.HeapPage q → P'.pagedir q = some f) ∧
    ∃ fs, P'.freed = P.freed ++ fs ∧ ∀ page ∈ fs, ∃ f, page = some f ∧
      (P.used f = false ∨ ∃ q, P.HeapPage q ∧ P.pagedir q = some f)

/-- The heap is given back as far as it goes, and all of it that is given back is
present. -/
def Process.Shrinks (P : Process) (increment : UInt32) : Prop :=
  P.heapEnd ≤ physBase ∧ (P.heapStart.toNat : ℤ) ≤ P.heapEnd.toNat + toOff increment ∧
  P.lastPage < roundPage (P.heapEnd + increment) + 2 ^ 19 ∧
  ∀ q, roundPage (P.heapEnd + increment) ≤ q → q < P.lastPage → (P.pagedir q).isSome

/-- No page is in the way, and the break stays in its bounds. -/
def Process.Grows (P : Process) (increment : UInt32) : Prop :=
  ¬P.Collides (roundPage P.heapEnd) (pagesNum P.heapEnd increment).toNat ∧
  (P.Granted (pagesNum P.heapEnd increment).toNat →
    P.heapStart ≤ P.heapEnd + increment ∧ P.heapEnd + increment ≤ physBase) ∧
  (¬P.Granted (pagesNum P.heapEnd increment).toNat → P.heapEnd ≤ physBase)

/-- The increments that `sbrk` can be given. -/
def Process.Allows (P : Process) (increment : UInt32) : Prop :=
  (toOff increment < 0 → P.Shrinks increment) ∧ (0 < toOff increment → P.Grows increment) ∧
  (toOff increment = 0 → P.heapEnd ≤ physBase)

variable {P : UserProcess} {increment : UInt32}

/-- The bits of an increment. -/
theorem toNat_of_neg (h : toOff increment < 0) :
    2 ^ 31 ≤ increment.toNat ∧ toOff increment = increment.toNat - 2 ^ 32 := by
  have hge : 2 ^ 31 ≤ increment.toNat := by
    refine Nat.le_of_not_lt fun hlt => ?_
    rw [toOff_of_lt hlt] at h
    omega
  exact ⟨hge, toOff_of_ge hge⟩

theorem eq_zero_of_toOff (h : toOff increment = 0) : increment = 0 := by
  unfold toOff at h
  refine UInt32.toNat_inj.1 ?_
  have hlt := increment.toNat_lt
  have h0 : (0 : UInt32).toNat = 0 := rfl
  split_ifs at h <;> omega

theorem moveEnd_returns {Q : Process} {R : UInt32 → Process → Prop} :
    Returns (moveEnd increment) Q R ↔
      R (Q.heapEnd + increment - increment) { Q with heapEnd := Q.heapEnd + increment } := by
  unfold moveEnd
  rw [returns_modify_bind, returns_get_bind, returns_pure]

/-- The row of pages that a shrinking call takes out. -/
theorem shrink_row {e e' s d : ℕ} {inc : UInt32} {va va' : UInt32} (hva : va.toNat = e)
    (hva' : va'.toNat = e') (hinc : 2 ^ 31 ≤ inc.toNat) (hsum : va' = va + inc) (hle : s ≤ e)
    (hlow : s ≤ e') (hhigh : e' ≤ physBase.toNat)
    (hd : d = (roundPage va + 2 ^ 20 - roundPage va') % 2 ^ 20)
    (hrow : ∀ q, roundPage va' ≤ q →
      q < roundPage va' +
        (if d < 2 ^ 19 then d else if d = 2 ^ 19 then 2 ^ 32 - 2 ^ 19 else 2 ^ 20 - d) →
      q < userPages ∧ (s + 4095) / 4096 ≤ q ∧ q < (e + 4095) / 4096) :
    e ≤ physBase.toNat ∧ s + 2 ^ 32 ≤ e + inc.toNat ∧ d < 2 ^ 19 ∧
      (e + 4095) / 4096 = roundPage va' + d := by
  have husers : userPages = 0xc0000 := rfl
  have hbase : physBase.toNat = 0xc0000000 := rfl
  have hlt := va.toNat_lt
  have hilt := inc.toNat_lt
  have hnat : e' = (e + inc.toNat) % 2 ^ 32 := by
    rw [← hva', hsum, UInt32.toNat_add, hva]
  unfold roundPage at *
  rw [hva] at *
  rw [hva'] at *
  by_cases hsmall : d < 2 ^ 19
  · rw [if_pos hsmall] at hrow
    by_cases hzero : d = 0
    · omega
    · have hfirst := hrow ((e' + 4095) % 2 ^ 32 / 4096) (Nat.le_refl _) (by omega)
      have hlast := hrow ((e' + 4095) % 2 ^ 32 / 4096 + (d - 1)) (by omega) (by omega)
      omega
  · rw [if_neg hsmall] at hrow
    split_ifs at hrow with hhalf
    · have hlast := hrow ((e' + 4095) % 2 ^ 32 / 4096 + (2 ^ 32 - 2 ^ 19 - 1)) (by omega) (by omega)
      omega
    · have hfirst := hrow ((e' + 4095) % 2 ^ 32 / 4096) (Nat.le_refl _) (by omega)
      have hlast := hrow ((e' + 4095) % 2 ^ 32 / 4096 + (2 ^ 20 - d - 1)) (by omega) (by omega)
      omega

/-- The row of pages, from the other side. -/
theorem shrink_count {va va' inc : UInt32} (hsum : va' = va + inc) (hinc : 2 ^ 31 ≤ inc.toNat)
    (hbound : va ≤ physBase) (hwrap : 2 ^ 32 ≤ va.toNat + inc.toNat)
    (hnear : (va.toNat + 4095) / 4096 < roundPage va' + 2 ^ 19) :
    roundPage va' ≤ (va.toNat + 4095) / 4096 ∧
      (pagesNum va inc).toNat = (va.toNat + 4095) / 4096 - roundPage va' := by
  have hbase : physBase.toNat = 0xc0000000 := rfl
  have hilt := inc.toNat_lt
  rw [UInt32.le_iff_toNat_le] at hbound
  have hnat : va'.toNat = va.toNat + inc.toNat - 2 ^ 32 := by
    rw [hsum, UInt32.toNat_add]
    omega
  have hfrom : roundPage va = (va.toNat + 4095) % 2 ^ 32 / 4096 := rfl
  have hto : roundPage va' = (va.toNat + inc.toNat - 2 ^ 32 + 4095) % 2 ^ 32 / 4096 := by
    rw [roundPage, hnat]
  have hpages := pagesNum_toNat va inc rfl
  rw [← hsum] at hpages
  have hle : roundPage va' ≤ (va.toNat + 4095) / 4096 := by omega
  refine ⟨hle, ?_⟩
  rw [hpages, if_pos (by omega)]
  omega

/-- **A shrinking call.** -/
theorem shrink_staysInHeap (hordered : P.heapStart ≤ P.heapEnd) (hneg : toOff increment < 0) :
    StaysInHeap P.toProcess increment ↔ P.Shrinks increment := by
  obtain ⟨hbit, hoff⟩ := toNat_of_neg hneg
  have hround := pgRoundUp_toNat (P.heapEnd + increment)
  have husers : userPages = 0xc0000 := rfl
  have hbase : physBase.toNat = 0xc0000000 := rfl
  have hsum : (P.heapEnd + increment).toNat = (P.heapEnd.toNat + increment.toNat) % 2 ^ 32 :=
    UInt32.toNat_add ..
  rw [UInt32.le_iff_toNat_le] at hordered
  unfold StaysInHeap syscallSbrk
  rw [returns_get_bind, if_pos hneg]
  set n := (pagesNum P.heapEnd increment).toNat with hn
  set p := roundPage (P.heapEnd + increment) with hp
  constructor
  · rintro ⟨v, P', hrun, hlow, hhigh, -, fs, hfreed, hfs⟩
    -- a row that ends above user space fails an assertion
    have hroom : ∀ q, p ≤ q → q < p + n → q < userPages := by
      refine fun q hpq hq => Nat.lt_of_not_le fun hge => ?_
      obtain ⟨_, P₁, hstuck, -⟩ := run_bind_cases hrun
      exact unmapPages_stuck P.backed hround (by omega) (by omega) _ _ hstuck
    obtain ⟨_, P₁, hrow, h₁⟩ := unmapPages_returns P.backed hround hroom
    rw [run_bind_of_run hrow] at hrun
    obtain ⟨rfl, rfl⟩ := Prod.mk.inj (Option.some.inj hrun)
    dsimp only at hlow hhigh hfreed
    rw [h₁.same.heapStart, h₁.same.heapEnd] at hlow
    rw [h₁.same.heapEnd] at hhigh
    rw [h₁.freed] at hfreed
    have hfs' := List.append_cancel_left hfreed
    -- every page of the row is a page of the heap, and present
    have hpages : ∀ q, p ≤ q → q < p + n → P.HeapPage q ∧ (P.pagedir q).isSome := by
      intro q hpq hq
      have hmem : P.pagedir q ∈ fs := by
        rw [← hfs']
        exact List.mem_map.2 ⟨q, List.mem_range'_1.2 ⟨hpq, hq⟩, rfl⟩
      obtain ⟨f, hf, hheap⟩ := hfs _ hmem
      rcases hheap with hunused | ⟨r, hr, hrf⟩
      · rw [(P.backed.used hf).2] at hunused
        cases hunused
      · exact ⟨P.backed.own hrf hf ▸ hr, by rw [hf]; rfl⟩
    rw [UInt32.le_iff_toNat_le] at hlow hhigh
    have hnum := pagesNum_toNat P.heapEnd increment rfl
    rw [← hn, ← hp] at hnum
    obtain ⟨h1, h2, h3, h4⟩ := shrink_row (s := P.heapStart.toNat) rfl rfl hbit rfl hordered hlow
      hhigh rfl fun q hpq hq => ⟨hroom q hpq (hnum ▸ hq), (hpages q hpq (hnum ▸ hq)).1⟩
    rw [← hp] at h3 h4
    rw [if_pos h3] at hnum
    refine ⟨UInt32.le_iff_toNat_le.2 h1, by omega, ?_, fun q hpq hq => (hpages q hpq ?_).2⟩
    · unfold Process.lastPage
      omega
    · unfold Process.lastPage at hq
      omega
  · rintro ⟨hend, hstart, hnear, hpresent⟩
    obtain ⟨hle, hcount⟩ := shrink_count rfl hbit hend (by omega) hnear
    rw [← hn, ← hp] at hcount
    rw [← hp] at hle
    rw [UInt32.le_iff_toNat_le] at hend
    have hlast : P.lastPage = p + n := by
      unfold Process.lastPage
      omega
    have hheap : ∀ q, p ≤ q → q < p + n → P.HeapPage q := by
      intro q hpq hq
      refine ⟨?_, by omega⟩
      have hfirst : P.firstPage ≤ p := by
        rw [hp]
        unfold Process.firstPage roundPage
        omega
      omega
    have hroom : ∀ q, p ≤ q → q < p + n → q < userPages := by
      intro q hpq hq
      have hlt := (hheap q hpq hq).2
      unfold Process.lastPage at hlt
      omega
    refine (unmapPages_returns P.backed hround hroom).seq fun _ P₁ h₁ => ?_
    rw [moveEnd_returns]
    dsimp only
    rw [h₁.same.heapStart, h₁.same.heapEnd]
    refine ⟨?_, ?_, fun q f hq hout => ?_, _, h₁.freed, fun page hpage => ?_⟩
    · rw [UInt32.le_iff_toNat_le, hsum]
      omega
    · rw [UInt32.le_iff_toNat_le, hsum]
      omega
    · rw [h₁.pagedir, if_neg fun hin => hout (hheap q hin.1 hin.2), hq]
    · obtain ⟨q, hq, rfl⟩ := List.mem_map.1 hpage
      obtain ⟨hpq, hqn⟩ := List.mem_range'_1.1 hq
      obtain ⟨f, hf⟩ := Option.isSome_iff_exists.1 (hpresent q hpq (by omega))
      exact ⟨f, hf, .inr ⟨q, hheap q hpq hqn, hf⟩⟩

/-- **A growing call.** -/
theorem grow_staysInHeap (hordered : P.heapStart ≤ P.heapEnd) (hpos : 0 < toOff increment) :
    StaysInHeap P.toProcess increment ↔ P.Grows increment := by
  have hround := pgRoundUp_toNat P.heapEnd
  unfold StaysInHeap syscallSbrk
  rw [returns_get_bind, if_neg (by omega), if_pos hpos]
  unfold Process.Grows
  generalize (pagesNum P.heapEnd increment).toNat = n
  rcases mapPages_cases (n := n) P.backed hround with
    ⟨hvacant, hgranted, hmap⟩ | ⟨hgranted, hclear, hmap⟩ | ⟨hcollides, hstuck⟩
  · -- all pages are put in
    have hclear : ¬P.Collides (roundPage P.heapEnd) n := by
      rintro ⟨k, hk, -, -, -, hblocked⟩
      exact hblocked fun q hpq hq => hvacant q (by omega) (by omega)
    obtain ⟨ok, P₁, hrun, rfl, h₁⟩ := hmap
    rw [returns_bind_of_run hrun, if_pos rfl, moveEnd_returns]
    dsimp only
    rw [h₁.same.heapStart, h₁.same.heapEnd]
    constructor
    · rintro ⟨hlow, hhigh, -⟩
      exact ⟨hclear, fun _ => ⟨hlow, hhigh⟩, fun h => absurd hgranted h⟩
    · rintro ⟨-, hbounds, -⟩
      obtain ⟨hlow, hhigh⟩ := hbounds hgranted
      refine ⟨hlow, hhigh, fun q f hq _ => ?_, [], by simp [h₁.freed], by simp⟩
      rw [h₁.outside q, hq]
      rintro ⟨hpq, hqn⟩
      rw [(hvacant q hpq hqn).2] at hq
      cases hq
  · -- what was put in is taken out again
    obtain ⟨ok, P₁, hrun, rfl, h₁⟩ := hmap
    rw [returns_bind_of_run hrun, if_neg Bool.false_ne_true, returns_pure]
    rw [h₁.same.heapStart, h₁.same.heapEnd, h₁.pagedir]
    constructor
    · rintro ⟨-, hhigh, -⟩
      exact ⟨hclear, fun h => absurd h hgranted, fun _ => hhigh⟩
    · rintro ⟨-, -, hhigh⟩
      obtain ⟨fs, hfs, hnew⟩ := h₁.freed
      refine ⟨hordered, hhigh hgranted, fun q f hq _ => hq, fs, hfs, fun page hpage => ?_⟩
      obtain ⟨f, hf, hunused⟩ := hnew page hpage
      exact ⟨f, hf, .inl hunused⟩
  · refine iff_of_false ?_ fun h => h.1 hcollides
    rintro ⟨v, P', hrun, -⟩
    obtain ⟨_, P₁, hmap, -⟩ := run_bind_cases hrun
    exact hstuck _ _ hmap

/-- A call that asks for the break. -/
theorem zero_staysInHeap (hordered : P.heapStart ≤ P.heapEnd) (hzero : toOff increment = 0) :
    StaysInHeap P.toProcess increment ↔ P.heapEnd ≤ physBase := by
  have hinc := eq_zero_of_toOff hzero
  unfold StaysInHeap syscallSbrk
  rw [returns_get_bind, if_neg (by omega), if_neg (by omega), moveEnd_returns]
  dsimp only
  rw [hinc, UInt32.add_zero]
  refine ⟨fun h => h.2.1, fun h => ⟨hordered, h, fun q f hq _ => hq, [], by simp, by simp⟩⟩

/-- **The bounds of the heap**: `sbrk` keeps them for these increments only. -/
theorem sbrk_staysInHeap (P : UserProcess) (increment : UInt32)
    (hordered : P.heapStart ≤ P.heapEnd) :
    StaysInHeap P.toProcess increment ↔ P.Allows increment := by
  unfold Process.Allows
  rcases Int.lt_trichotomy (toOff increment) 0 with hneg | hzero | hpos
  · rw [shrink_staysInHeap hordered hneg]
    exact ⟨fun h => ⟨fun _ => h, fun h' => by omega, fun h' => by omega⟩, fun h => h.1 hneg⟩
  · rw [zero_staysInHeap hordered hzero]
    exact ⟨fun h => ⟨fun h' => by omega, fun h' => by omega, fun _ => h⟩, fun h => h.2.2 hzero⟩
  · rw [grow_staysInHeap hordered hpos]
    exact ⟨fun h => ⟨fun h' => by omega, fun _ => h, fun h' => by omega⟩, fun h => h.2.1 hpos⟩

/-- A process with an empty heap above one page of code. -/
def codeProcess : UserProcess where
  heapStart := 0x08050000
  heapEnd := 0x08050000
  pagedir q := if q = 0x804f then some 0 else none
  used f := f = 0
  poolSize := 1
  poolFits := by decide
  content _ _ := 0
  grants _ := true
  tables _ := true
  freed := []
  backed := by
    refine ⟨fun hq => ?_, fun hq hr => ?_⟩
    · dsimp only at hq
      split_ifs at hq
      cases hq
      exact ⟨Nat.one_pos, rfl⟩
    · dsimp only at hq hr
      split_ifs at hq hr with h h'
      rw [h, h']

/-- The process with a page of heap, in the frame behind that of the code. -/
def heapProcess : UserProcess where
  heapStart := 0x08050000
  heapEnd := 0x08050800
  pagedir q := if q = 0x804f then some 0 else if q = 0x8050 then some 1 else none
  used f := f < 2
  poolSize := 4
  poolFits := by decide
  content _ _ := 0
  grants _ := true
  tables _ := true
  freed := []
  backed := by
    refine ⟨fun hq => ?_, fun hq hr => ?_⟩
    · dsimp only at hq
      split_ifs at hq <;> cases hq <;> decide
    · dsimp only at hq hr
      split_ifs at hq hr <;> cases hq <;> first | omega | cases hr

/-- The page of heap is given back, or two pages are taken. -/
theorem sbrk_staysInHeap_page : StaysInHeap heapProcess.toProcess 0xfffff800 ∧
    StaysInHeap heapProcess.toProcess 8000 := by
  constructor
  · refine (sbrk_staysInHeap heapProcess 0xfffff800 (by decide)).2
      ⟨fun _ => ⟨by decide, by decide, by decide, fun q hq hq' => ?_⟩, fun h => absurd h (by decide),
        fun h => absurd h (by decide)⟩
    have hfrom : roundPage (heapProcess.heapEnd + 0xfffff800) = 0x8050 := by decide
    have hto : heapProcess.lastPage = 0x8051 := by decide
    obtain rfl : q = 0x8050 := by omega
    rfl
  · refine (sbrk_staysInHeap heapProcess 8000 (by decide)).2
      ⟨fun h => absurd h (by decide), fun _ => ⟨?_, fun _ => ⟨by decide, by decide⟩, fun _ => by decide⟩,
        fun h => absurd h (by decide)⟩
    rintro ⟨k, hk, -, -, -, hblocked⟩
    have hfrom : roundPage heapProcess.heapEnd = 0x8051 := by decide
    have hcount : (pagesNum heapProcess.heapEnd 8000).toNat = 2 := by decide
    refine hblocked fun q hq hq' => ⟨?_, ?_⟩
    · have husers : userPages = 0xc0000 := rfl
      omega
    · exact (if_neg (by omega)).trans (if_neg (by omega))

/-- Giving back a page of an empty heap. -/
theorem not_staysInHeap : ¬∀ (P : UserProcess) (increment : UInt32), P.heapStart ≤ P.heapEnd →
    StaysInHeap P.toProcess increment := by
  intro h
  have hstays := h codeProcess 0xfffff000 (by decide)
  obtain ⟨-, hstart, -⟩ := (shrink_staysInHeap (by decide) (by decide)).1 hstays
  exact absurd hstart (by decide)

end HwMemory
end CS162

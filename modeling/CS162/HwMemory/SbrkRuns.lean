/-
# The heap over a run

`hw-memory/pintos/src/userprog/syscall.c`, lines 81-116.

A process calls `sbrk` with increments that keep the break between the start of its
heap and a bound below which no other page is mapped, and between the calls anything
may happen to its bytes and to frames that are not its own.  The pages present are
then those of `[round_up (start), round_up (break))` (`HeapExact`), whatever requests
for memory are refused, and a call moves the break or leaves everything as it was
(`sbrk_exact`).
-/

import Mathlib.Order.Interval.Finset.Nat
import CS162.HwMemory.SbrkBounds

namespace CS162
namespace HwMemory

open CS162.Basis CS162.Userprog

/-- The pages of the heap that are present, up to page `top`. -/
structure HeapExact (top : ℕ) (P : Process) : Prop where
  ordered : P.heapStart ≤ P.heapEnd
  below : P.heapEnd.toNat ≤ 4096 * top
  present : ∀ q, P.firstPage ≤ q → q < top → ((P.pagedir q).isSome ↔ q < P.lastPage)
  backed : Backed P

/-- The increment keeps the break in its bounds. -/
def Process.Keeps (P : Process) (top : ℕ) (increment : UInt32) : Prop :=
  (P.heapStart.toNat : ℤ) ≤ P.heapEnd.toNat + toOff increment ∧
    P.heapEnd.toNat + toOff increment ≤ 4096 * top

/-- The increment needs pages, and a request for one of them, or for a page table, is refused. -/
def Process.Refused (P : Process) (increment : UInt32) : Prop :=
  0 < toOff increment ∧
    ¬P.Granted (((P.heapEnd + increment).toNat + 4095) / 4096 - P.lastPage)

/-- What happens between two calls: bytes change, and frames that are not the
process's. -/
structure Elsewhere (P P' : Process) : Prop where
  same : SameHeap P P'
  pagedir : P'.pagedir = P.pagedir
  used : ∀ {q f}, P.pagedir q = some f → P'.used f = true

/-- The states of a process that has called `sbrk` within its bounds. -/
inductive SbrkReach (top : ℕ) : Process → Prop where
  | start {P : Process} : P.heapStart = P.heapEnd → P.heapEnd.toNat ≤ 4096 * top →
      (∀ q, P.firstPage ≤ q → q < top → P.pagedir q = none) → Backed P → SbrkReach top P
  | call {P P' : Process} {increment v : UInt32} : SbrkReach top P → P.Keeps top increment →
      (syscallSbrk increment).run P = some (v, P') → SbrkReach top P'
  | other {P P' : Process} : SbrkReach top P → Elsewhere P P' → SbrkReach top P'

/-- The break has moved. -/
structure SbrkDone (P : Process) (increment v : UInt32) (P' : Process) : Prop where
  value : v = P.heapEnd
  heapStart : P'.heapStart = P.heapStart
  heapEnd : P'.heapEnd = P.heapEnd + increment
  /-- Pages that are not between the two breaks stay, with their bytes. -/
  kept : ∀ q, q < P.lastPage ∧ q < P'.lastPage ∨ P.lastPage ≤ q ∧ P'.lastPage ≤ q →
    P'.pagedir q = P.pagedir q
  content : ∀ q f, P.pagedir q = some f → P'.pagedir q = some f → P'.content f = P.content f
  /-- New pages are zero, in frames that were free. -/
  zero : ∀ q, P.lastPage ≤ q → q < P'.lastPage →
    ∃ f, P'.pagedir q = some f ∧ P.used f = false ∧ P'.content f = fun _ => 0
  used : ∀ f, P'.used f = true ↔
    (P.used f = true ∧ ∀ q, P'.lastPage ≤ q → q < P.lastPage → P.pagedir q ≠ some f) ∨
      ∃ q, P.lastPage ≤ q ∧ q < P'.lastPage ∧ P'.pagedir q = some f
  /-- The frames given back are freed once each. -/
  freed : ∃ fs : List ℕ, P'.freed = P.freed ++ fs.map some ∧ fs.Nodup ∧
    ∀ f, f ∈ fs ↔ ∃ q, P'.lastPage ≤ q ∧ q < P.lastPage ∧ P.pagedir q = some f

variable {top : ℕ} {P P' : Process} {increment : UInt32}

theorem HeapExact.first_le_last (h : HeapExact top P) : P.firstPage ≤ P.lastPage := by
  have hle := UInt32.le_iff_toNat_le.1 h.ordered
  unfold Process.firstPage Process.lastPage
  omega

theorem HeapExact.last_le_top (h : HeapExact top P) : P.lastPage ≤ top := by
  have hle := h.below
  unfold Process.lastPage
  omega

theorem roundPage_of_le {va : UInt32} (h : va.toNat ≤ 4096 * userPages) :
    roundPage va = (va.toNat + 4095) / 4096 := by
  have husers : userPages = 0xc0000 := rfl
  unfold roundPage
  omega

/-- **The heap is no larger than the pool**, as each page has a frame of its own. -/
theorem HeapExact.small (h : HeapExact top P) : P.lastPage - P.firstPage ≤ 2 ^ 18 := by
  have hframe : ∀ q ∈ Finset.Ico P.firstPage P.lastPage, ∃ f, P.pagedir q = some f := by
    intro q hq
    obtain ⟨hfirst, hlast⟩ := Finset.mem_Ico.1 hq
    have htop := h.last_le_top
    exact Option.isSome_iff_exists.1 ((h.present q hfirst (by omega)).2 hlast)
  have hcard := Finset.card_le_card_of_injOn (s := Finset.Ico P.firstPage P.lastPage)
    (t := Finset.range P.poolSize) (fun q => (P.pagedir q).getD 0) (fun q hq => ?_)
    fun q hq r hr he => ?_
  · rw [Nat.card_Ico, Finset.card_range] at hcard
    exact hcard.trans P.poolFits
  · obtain ⟨f, hf⟩ := hframe q hq
    show (P.pagedir q).getD 0 ∈ _
    rw [hf]
    exact Finset.mem_coe.2 (Finset.mem_range.2 (h.backed.used hf).1)
  · obtain ⟨f, hf⟩ := hframe q hq
    obtain ⟨g, hg⟩ := hframe r hr
    dsimp only at he
    rw [hf, hg] at he
    obtain rfl : f = g := he
    exact h.backed.own hf hg

theorem free_card_le (P : Process) : P.free.card ≤ 2 ^ 18 := by
  have hle := Finset.card_le_card (Finset.filter_subset (fun f => P.used f = false)
    (Finset.range P.poolSize))
  rw [Finset.card_range] at hle
  exact hle.trans P.poolFits

/-- Where the break goes. -/
theorem Process.Keeps.toNat (ht : top ≤ userPages) (hk : P.Keeps top increment) :
    ((P.heapEnd + increment).toNat : ℤ) = P.heapEnd.toNat + toOff increment := by
  obtain ⟨hlow, hhigh⟩ := hk
  have husers : userPages = 0xc0000 := rfl
  have hlt := increment.toNat_lt
  rw [UInt32.toNat_add]
  unfold toOff at *
  split_ifs at * <;> omega

/-- **A call that gives pages back.** -/
theorem HeapExact.shrink (ht : top ≤ userPages) (h : HeapExact top P)
    (hk : P.Keeps top increment) (hneg : toOff increment < 0) :
    Returns (syscallSbrk increment) P fun v P' =>
      HeapExact top P' ∧ SbrkDone P increment v P' := by
  have hnat := hk.toNat ht
  obtain ⟨hlow, hhigh⟩ := hk
  obtain ⟨hbit, hoff⟩ := toNat_of_neg hneg
  have husers : userPages = 0xc0000 := rfl
  have hbase : physBase.toNat = 0xc0000000 := rfl
  have hbelow := h.below
  have hsmall := h.small
  have hlastTop := h.last_le_top
  have hround := pgRoundUp_toNat (P.heapEnd + increment)
  have hto : roundPage (P.heapEnd + increment) = _ := roundPage_of_le (by omega)
  have hfirst : P.firstPage ≤ roundPage (P.heapEnd + increment) := by
    unfold Process.firstPage
    omega
  have hlast : P.lastPage = (P.heapEnd.toNat + 4095) / 4096 := rfl
  have hbound : P.heapEnd ≤ physBase := UInt32.le_iff_toNat_le.2 (by omega)
  obtain ⟨hle, hcount⟩ := shrink_count rfl hbit hbound (by omega) (by omega)
  rw [← hlast] at hle hcount
  unfold syscallSbrk
  rw [returns_get_bind, if_pos hneg, hcount]
  set p := roundPage (P.heapEnd + increment) with hp
  have hroom : ∀ q, p ≤ q → q < p + (P.lastPage - p) → q < userPages := fun q hpq hq => by omega
  refine (unmapPages_returns h.backed hround hroom).seq fun _ P₁ h₁ => ?_
  rw [moveEnd_returns, h₁.same.heapEnd]
  -- the new last page
  have hnew : Process.lastPage { P₁ with heapEnd := P.heapEnd + increment } = p := by
    rw [hto]
    rfl
  have hkeep : Process.firstPage { P₁ with heapEnd := P.heapEnd + increment } = P.firstPage := by
    unfold Process.firstPage
    rw [h₁.same.heapStart]
  have hpage : ∀ q, P₁.pagedir q = if p ≤ q ∧ q < P.lastPage then none else P.pagedir q := by
    intro q
    rw [h₁.pagedir]
    refine if_congr (and_congr_right fun _ => ?_) rfl rfl
    omega
  have hbacked₁ := h₁.backed h.backed
  refine ⟨⟨?_, ?_, fun q hq hqtop => ?_, ⟨hbacked₁.used, hbacked₁.own⟩⟩, ?_⟩
  · rw [UInt32.le_iff_toNat_le]
    dsimp only
    rw [h₁.same.heapStart]
    omega
  · dsimp only
    omega
  · rw [hkeep] at hq
    rw [hnew]
    dsimp only
    rw [hpage]
    split_ifs with hin
    · exact iff_of_false (by simp) (by omega)
    · rw [h.present q hq hqtop]
      omega
  · refine ⟨UInt32.add_sub_cancel .., h₁.same.heapStart, rfl, fun q hq => ?_, fun q f _ hq => ?_,
      fun q hlastq hq => ?_, fun f => ?_, ?_⟩
    · rw [hnew] at hq
      dsimp only
      rw [hpage, if_neg (by omega)]
    · exact h₁.content f (hbacked₁.used hq).2
    · rw [hnew] at hq
      omega
    · rw [hnew]
      dsimp only
      rw [h₁.used]
      constructor
      · rintro ⟨hused, hall⟩
        exact .inl ⟨hused, fun q hpq hq => hall q hpq (by omega)⟩
      · rintro (⟨hused, hall⟩ | ⟨q, hlastq, hq, -⟩)
        · exact ⟨hused, fun q hpq hq => hall q hpq (by omega)⟩
        · omega
    · rw [hnew]
      have hsome : ∀ q, p ≤ q → q < P.lastPage → ∃ f, P.pagedir q = some f := fun q hpq hq =>
        Option.isSome_iff_exists.1 ((h.present q (by omega) (by omega)).2 hq)
      refine ⟨(List.range' p (P.lastPage - p)).map fun q => (P.pagedir q).getD 0, ?_, ?_,
        fun f => ?_⟩
      · rw [h₁.freed, List.map_map]
        refine congrArg _ (List.map_congr_left fun q hq => ?_)
        obtain ⟨hpq, hq⟩ := List.mem_range'_1.1 hq
        obtain ⟨f, hf⟩ := hsome q hpq (by omega)
        simp [hf]
      · refine List.Nodup.map_on (fun q hq r hr he => ?_) (List.nodup_range' _)
        obtain ⟨hpq, hq⟩ := List.mem_range'_1.1 hq
        obtain ⟨hpr, hr⟩ := List.mem_range'_1.1 hr
        obtain ⟨f, hf⟩ := hsome q hpq (by omega)
        obtain ⟨g, hg⟩ := hsome r hpr (by omega)
        rw [hf, hg] at he
        obtain rfl : f = g := he
        exact h.backed.own hf hg
      · rw [List.mem_map]
        constructor
        · rintro ⟨q, hq, rfl⟩
          obtain ⟨hpq, hq⟩ := List.mem_range'_1.1 hq
          obtain ⟨f, hf⟩ := hsome q hpq (by omega)
          exact ⟨q, hpq, by omega, by simp [hf]⟩
        · rintro ⟨q, hpq, hq, hf⟩
          exact ⟨q, List.mem_range'_1.2 ⟨hpq, by omega⟩, by simp [hf]⟩

/-- The number of pages of a growing call; more than there are frames where the code
gets it wrong. -/
theorem grow_count {va inc : UInt32} {a b : ℕ} (ha : roundPage va = a)
    (hb : roundPage (va + inc) = b) (hle : a ≤ b) (hfar : b ≤ a + 2 ^ 19) :
    (pagesNum va inc).toNat = b - a ∨ 2 ^ 18 < (pagesNum va inc).toNat ∧ b = a + 2 ^ 19 := by
  have hpages := pagesNum_toNat va inc rfl
  rw [ha, hb] at hpages
  rw [hpages]
  split_ifs <;> omega

/-- **A call that takes pages.** -/
theorem HeapExact.grow (ht : top ≤ userPages) (h : HeapExact top P)
    (hk : P.Keeps top increment) (hpos : 0 < toOff increment) :
    Returns (syscallSbrk increment) P fun v P' => HeapExact top P' ∧
      (¬P.Refused increment ∧ SbrkDone P increment v P' ∨
        P.Refused increment ∧ v = 0xffffffff ∧ Restored P P') := by
  have hnat := hk.toNat ht
  obtain ⟨hlow, hhigh⟩ := hk
  have husers : userPages = 0xc0000 := rfl
  have hbelow := h.below
  have hlastTop := h.last_le_top
  have hle := h.first_le_last
  have hordered := UInt32.le_iff_toNat_le.1 h.ordered
  have hround := pgRoundUp_toNat P.heapEnd
  have hfrom : roundPage P.heapEnd = P.lastPage := roundPage_of_le (by omega)
  have hto : roundPage (P.heapEnd + increment) = _ := roundPage_of_le (by omega)
  have hoff : toOff increment < 2 ^ 31 := by
    have hlt := increment.toNat_lt
    unfold toOff
    split_ifs <;> omega
  have hlast : P.lastPage = (P.heapEnd.toNat + 4095) / 4096 := rfl
  have hcount := grow_count hfrom hto (by omega) (by omega)
  have hfree := free_card_le P
  -- the pages up to the bound are not present
  have hvacant : ∀ k, P.lastPage + k < top → P.Vacant (P.lastPage + k) 1 := by
    intro k hk q hpq hq
    refine ⟨by omega, ?_⟩
    rw [← Option.not_isSome_iff_eq_none, h.present q (by omega) (by omega)]
    omega
  unfold syscallSbrk
  rw [returns_get_bind, if_neg (by omega), if_pos hpos]
  revert hcount
  generalize (pagesNum P.heapEnd increment).toNat = n
  intro hcount
  have hround' : (pgRoundUp P.heapEnd).toNat = 4096 * P.lastPage := hfrom ▸ hround
  rcases mapPages_cases (n := n) h.backed hround' with
    ⟨-, hgranted, hmap⟩ | ⟨hrefused, -, hmap⟩ | ⟨⟨k, hk, -, -, hframe, hblocked⟩, -⟩
  · -- all of them
    have hn : P.lastPage + n = ((P.heapEnd + increment).toNat + 4095) / 4096 := by
      have := hgranted.1
      omega
    obtain ⟨ok, P₁, hrun, rfl, h₁⟩ := hmap
    rw [returns_bind_of_run hrun, if_pos rfl, moveEnd_returns, h₁.same.heapEnd]
    have hnew : Process.lastPage { P₁ with heapEnd := P.heapEnd + increment } = P.lastPage + n :=
      hn.symm
    have hkeep : Process.firstPage { P₁ with heapEnd := P.heapEnd + increment } = P.firstPage := by
      unfold Process.firstPage
      rw [h₁.same.heapStart]
    have hmeant : ¬P.Refused increment := fun hr => hr.2 (by rwa [← hn, Nat.add_sub_cancel_left])
    refine ⟨⟨?_, ?_, fun q hq hqtop => ?_, ⟨h₁.backed.used, h₁.backed.own⟩⟩, .inl ⟨hmeant, ?_⟩⟩
    · rw [UInt32.le_iff_toNat_le]
      dsimp only
      rw [h₁.same.heapStart]
      omega
    · dsimp only
      omega
    · rw [hkeep] at hq
      rw [hnew]
      dsimp only
      by_cases hin : P.lastPage ≤ q ∧ q < P.lastPage + n
      · obtain ⟨f, hf, -⟩ := h₁.inside q hin.1 hin.2
        exact iff_of_true (by simp [hf]) hin.2
      · rw [h₁.outside q hin, h.present q hq hqtop]
        omega
    · refine ⟨UInt32.add_sub_cancel .., h₁.same.heapStart, rfl, fun q hq => ?_, fun q f hq _ => ?_,
        fun q hlastq hq => ?_, fun f => ?_, [], by simp [h₁.freed], List.nodup_nil, fun f => ?_⟩
      · rw [hnew] at hq
        exact h₁.outside q (by omega)
      · exact h₁.content f (h.backed.used hq).2
      · rw [hnew] at hq
        exact h₁.inside q hlastq hq
      · rw [hnew]
        dsimp only
        rw [h₁.used]
        refine or_congr_left ⟨fun hused => ⟨hused, fun q hq hq' => by omega⟩, And.left⟩
      · rw [hnew]
        refine iff_of_false (by simp) ?_
        rintro ⟨q, hq, hq', -⟩
        omega
  · -- none of them
    obtain ⟨ok, P₁, hrun, rfl, h₁⟩ := hmap
    rw [returns_bind_of_run hrun, if_neg Bool.false_ne_true, returns_pure]
    have hnew : P₁.lastPage = P.lastPage := by
      unfold Process.lastPage
      rw [h₁.same.heapEnd]
    have hkeep : P₁.firstPage = P.firstPage := by
      unfold Process.firstPage
      rw [h₁.same.heapStart]
    have hmeant : P.Refused increment := by
      refine ⟨hpos, fun hgranted => ?_⟩
      have hfew := hgranted.1
      rcases hcount with hcount | ⟨-, hfar⟩
      · exact hrefused (hcount ▸ hgranted)
      · omega
    refine ⟨⟨?_, ?_, fun q hq hqtop => ?_, h₁.backed h.backed⟩, .inr ⟨hmeant, rfl, h₁⟩⟩
    · rw [h₁.same.heapStart, h₁.same.heapEnd]
      exact h.ordered
    · rw [h₁.same.heapEnd]
      exact hbelow
    · rw [hkeep] at hq
      rw [hnew, h₁.pagedir]
      exact h.present q hq hqtop
  · -- no page of the row is in the way
    refine absurd (hvacant k ?_) hblocked
    have := hframe.1
    omega

/-- A call that asks for the break. -/
theorem HeapExact.ask (h : HeapExact top P) (hzero : toOff increment = 0) :
    Returns (syscallSbrk increment) P fun v P' =>
      HeapExact top P' ∧ SbrkDone P increment v P' := by
  have hinc := eq_zero_of_toOff hzero
  subst hinc
  unfold syscallSbrk
  rw [returns_get_bind, if_neg (by omega), if_neg (by omega), moveEnd_returns]
  have hsame : { P with heapEnd := P.heapEnd + 0 } = P := by rw [UInt32.add_zero]
  rw [hsame]
  refine ⟨h, UInt32.add_sub_cancel .., rfl, (UInt32.add_zero _).symm, fun _ _ => rfl,
    fun _ _ _ _ => rfl, fun q hq hq' => by omega, fun f => ?_, [], by simp, List.nodup_nil,
    fun f => ?_⟩
  · constructor
    · exact fun hused => .inl ⟨hused, fun q hq hq' => by omega⟩
    · rintro (⟨hused, -⟩ | ⟨q, hq, hq', -⟩)
      · exact hused
      · omega
  · refine iff_of_false (by simp) ?_
    rintro ⟨q, hq, hq', -⟩
    omega

/-- **One call.** -/
theorem HeapExact.call (ht : top ≤ userPages) (h : HeapExact top P)
    (hk : P.Keeps top increment) :
    Returns (syscallSbrk increment) P fun v P' => HeapExact top P' ∧
      (¬P.Refused increment ∧ SbrkDone P increment v P' ∨
        P.Refused increment ∧ v = 0xffffffff ∧ Restored P P') := by
  rcases Int.lt_trichotomy (toOff increment) 0 with hneg | hzero | hpos
  · exact (h.shrink ht hk hneg).mono fun _ _ h' => ⟨h'.1, .inl ⟨fun hr => by have := hr.1; omega, h'.2⟩⟩
  · exact (h.ask hzero).mono fun _ _ h' => ⟨h'.1, .inl ⟨fun hr => by have := hr.1; omega, h'.2⟩⟩
  · exact h.grow ht hk hpos

/-- What happens elsewhere leaves the heap. -/
theorem HeapExact.other (h : HeapExact top P) (ho : Elsewhere P P') : HeapExact top P' := by
  have hlast : P'.lastPage = P.lastPage := by
    unfold Process.lastPage
    rw [ho.same.heapEnd]
  have hfirst : P'.firstPage = P.firstPage := by
    unfold Process.firstPage
    rw [ho.same.heapStart]
  refine ⟨?_, ?_, fun q hq hqtop => ?_, fun hq => ?_, fun hq hr => ?_⟩
  · rw [ho.same.heapStart, ho.same.heapEnd]
    exact h.ordered
  · rw [ho.same.heapEnd]
    exact h.below
  · rw [hfirst] at hq
    rw [hlast, ho.pagedir]
    exact h.present q hq hqtop
  · rw [ho.pagedir] at hq
    exact ⟨ho.same.poolSize ▸ (h.backed.used hq).1, ho.used hq⟩
  · rw [ho.pagedir] at hq hr
    exact h.backed.own hq hr

/-- **Every state of a run.** -/
theorem SbrkReach.exact (ht : top ≤ userPages) (h : SbrkReach top P) : HeapExact top P := by
  induction h with
  | @start P hempty hbelow hnone hbacked =>
    refine ⟨UInt32.le_of_eq hempty, hbelow, fun q hq hqtop => ?_, hbacked⟩
    have hsame : P.lastPage = P.firstPage := by
      unfold Process.lastPage Process.firstPage
      rw [hempty]
    rw [hnone q hq hqtop, hsame]
    exact iff_of_false (by simp) (by omega)
  | call _ hk hrun ih => exact ((ih.call ht hk).of_run hrun).1
  | other _ ho ih => exact ih.other ho

/-- **The heap mapping is exact**: whatever has happened, the next call moves the break
and the pages with it; only if memory for pages that it needs is refused, it changes nothing. -/
theorem sbrk_exact (ht : top ≤ userPages) (h : SbrkReach top P) (hk : P.Keeps top increment) :
    Returns (syscallSbrk increment) P fun v P' => HeapExact top P' ∧
      (¬P.Refused increment ∧ SbrkDone P increment v P' ∨
        P.Refused increment ∧ v = 0xffffffff ∧ Restored P P') :=
  (h.exact ht).call ht hk

/-- The process of one page of code, with two free frames. -/
def freshProcess : Process :=
  { codeProcess.toProcess with
    poolSize := 3
    poolFits := by decide }

/-- The heap grows by two pages, for which there are two frames; where there is none, it stays. -/
theorem sbrk_exact_fresh :
    Returns (syscallSbrk 5000) freshProcess (fun v P' =>
      HeapExact 0xb0000 P' ∧ SbrkDone freshProcess 5000 v P') ∧
    Returns (syscallSbrk 5000) codeProcess.toProcess fun v P' =>
      HeapExact 0xb0000 P' ∧ v = 0xffffffff ∧ Restored codeProcess.toProcess P' := by
  have hbacked := codeProcess.backed
  have hnone : ∀ q, 0x8050 ≤ q → q < 0xb0000 → codeProcess.pagedir q = none :=
    fun q hq _ => if_neg (by omega)
  have hpages : SbrkReach 0xb0000 freshProcess := by
    refine .start rfl (by decide) hnone ⟨fun hq => ⟨?_, (hbacked.used hq).2⟩, hbacked.own⟩
    exact (hbacked.used hq).1.trans (by decide)
  have hfull : SbrkReach 0xb0000 codeProcess.toProcess := .start rfl (by decide) hnone hbacked
  constructor
  · refine (sbrk_exact (by decide) hpages ⟨by decide, by decide⟩).mono ?_
    rintro v P' ⟨hexact, ⟨-, hdone⟩ | ⟨hrefused, -⟩⟩
    · exact ⟨hexact, hdone⟩
    · have hgranted : freshProcess.Granted 2 := ⟨by decide, fun _ _ => ⟨rfl, rfl⟩⟩
      exact absurd hgranted hrefused.2
  · refine (sbrk_exact (by decide) hfull ⟨by decide, by decide⟩).mono ?_
    rintro v P' ⟨hexact, ⟨hneeds, -⟩ | ⟨-, hkept⟩⟩
    · refine absurd ⟨by decide, fun hgranted => ?_⟩ hneeds
      exact absurd hgranted.1 (by decide)
    · exact ⟨hexact, hkept⟩

end HwMemory
end CS162

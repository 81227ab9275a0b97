/-
# The heap of a process

`hw-memory/pintos/src/userprog/syscall.c`, lines 81-116 (`syscall_sbrk`), with what it
calls of `userprog/pagedir.c` (lines 92-141) and `threads/palloc.c`, and `pg_round_up`
of `threads/vaddr.h`.

Pages are found by their number and frames by their index in the user pool, which is a
part of the kernel's quarter of the address space.  `grants` and `tables` answer the
requests to come for frames and for page tables; a frame that is granted is the first
free one, if there is one, as in `bitmap_scan_and_flip`.

A failed assertion does not return.  Where every page is backed by a frame of its own
(`Backed`), taking pages out of a row of them succeeds if they are user pages
(`unmapPages_returns`), and putting a row in gives the row, puts everything back when
memory runs out (`mapPages_returns`), or fails an assertion (`mapPages_stuck`).
-/

import Mathlib.Data.Finset.Card
import CS162.Basis.Program
import CS162.Userprog.Vaddr

namespace CS162
namespace HwMemory

open CS162.Basis CS162.Userprog

/-- What `sbrk` works on. -/
structure Process where
  /-- `thread_heap_start` and `thread_heap_end`. -/
  heapStart : UInt32
  heapEnd : UInt32
  /-- The frames of the pages that are present, by page number. -/
  pagedir : ℕ → Option ℕ
  /-- `used_map` of the user pool. -/
  used : ℕ → Bool
  poolSize : ℕ
  /-- The kernel's addresses hold no more. -/
  poolFits : poolSize ≤ 2 ^ 18
  /-- The bytes of the frames. -/
  content : ℕ → ℕ → UInt8
  grants : ℕ → Bool
  tables : ℕ → Bool
  /-- History: what `palloc_free_page` was called with. -/
  freed : List (Option ℕ)

abbrev OnHeap := Prog Process

/-- `pg_round_up`. -/
def pgRoundUp (va : UInt32) : UInt32 := (va + pgsize - 1) &&& ~~~pgmask

/-- `palloc_get_page (PAL_USER | PAL_ZERO)`. -/
def pallocGetPage : OnHeap (Option ℕ) := do
  let P ← get
  set { P with grants := fun n => P.grants (n + 1) }
  match (List.range P.poolSize).find? fun f => !P.used f with
  | some f =>
    if P.grants 0 then
      modify fun P => { P with
        used := Function.update P.used f true
        content := Function.update P.content f fun _ => 0 }
      return some f
    else return none
  | none => return none

/-- `palloc_free_page`. -/
def pallocFreePage (page : Option ℕ) : OnHeap Unit := do
  modify fun P => { P with freed := P.freed ++ [page] }
  let P ← get
  match page with
  | none => return
  | some f =>
    if f < P.poolSize ∧ P.used f = true then
      set { P with
        used := Function.update P.used f false
        content := Function.update P.content f fun _ => 0xcc }
    else halt

/-- `pagedir_get_page`, of the address of a page. -/
def pagedirGetPage (upage : UInt32) : OnHeap (Option ℕ) := do
  let P ← get
  if isUserVaddr upage = false then halt
  else return P.pagedir (pgNo upage)

/-- `pagedir_clear_page`. -/
def pagedirClearPage (upage : UInt32) : OnHeap Unit :=
  if pgOfs upage ≠ 0 then halt
  else if isUserVaddr upage = false then halt
  else modify fun P => { P with pagedir := Function.update P.pagedir (pgNo upage) none }

/-- `pagedir_set_page`: a page that is present has a page table. -/
def pagedirSetPage (upage : UInt32) (kpage : ℕ) : OnHeap Bool := do
  let P ← get
  if pgOfs upage ≠ 0 then halt
  else if isUserVaddr upage = false then halt
  else if (P.pagedir (pgNo upage)).isSome then halt
  else
    set { P with tables := fun n => P.tables (n + 1) }
    if P.tables 0 then
      modify fun P => { P with pagedir := Function.update P.pagedir (pgNo upage) (some kpage) }
      return true
    else return false

/-- The body of the loops that take pages out. -/
def unmapPage (start : UInt32) : OnHeap Unit := do
  let page ← pagedirGetPage start
  pallocFreePage page
  pagedirClearPage start

/-- The loops that take out `n` pages from `start` on. -/
def unmapPages : ℕ → UInt32 → OnHeap Unit
  | 0, _ => return
  | n + 1, start => do
    unmapPage start
    unmapPages n (start + pgsize)

/-- The body of the loop that puts pages in, up to `flag`. -/
def mapPage (upage : UInt32) : OnHeap Bool := do
  let page ← pallocGetPage
  match page with
  | none => return false
  | some f =>
    let installed ← pagedirSetPage upage f
    if installed then return true
    else
      pallocFreePage (some f)
      return false

/-- The loop that puts in pages from `first` on: `now` is `pages_num_now`, and `n` are
still to come. -/
def mapPages (first : UInt32) : ℕ → ℕ → OnHeap Bool
  | 0, _ => return true
  | n + 1, now => do
    let mapped ← mapPage (first + UInt32.ofNat now * pgsize)
    if mapped then mapPages first n (now + 1)
    else
      unmapPages now first
      return false

/-- `abs`, which leaves the least `int` as it is. -/
def abs (x : UInt32) : UInt32 := if toOff x < 0 then 0 - x else x

/-- `pages_num`. -/
def pagesNum (heapEnd increment : UInt32) : UInt32 :=
  UInt32.ofInt ((toOff (abs (pgRoundUp heapEnd - pgRoundUp (heapEnd + increment)))).tdiv 4096)

/-- The last two lines of `syscall_sbrk`. -/
def moveEnd (increment : UInt32) : OnHeap UInt32 := do
  modify fun P => { P with heapEnd := P.heapEnd + increment }
  let P ← get
  return P.heapEnd - increment

/-- `syscall_sbrk`. -/
def syscallSbrk (increment : UInt32) : OnHeap UInt32 := do
  let P ← get
  let pages := (pagesNum P.heapEnd increment).toNat
  if toOff increment < 0 then
    unmapPages pages (pgRoundUp (P.heapEnd + increment))
    moveEnd increment
  else if 0 < toOff increment then
    let mapped ← mapPages (pgRoundUp P.heapEnd) pages 0
    if mapped then moveEnd increment
    else return 0xffffffff
  else moveEnd increment

/-! ### Pages and frames -/

/-- Every page has a frame in use, of its own. -/
structure Backed (P : Process) : Prop where
  used : ∀ {p f}, P.pagedir p = some f → f < P.poolSize ∧ P.used f = true
  own : ∀ {p q f}, P.pagedir p = some f → P.pagedir q = some f → p = q

/-- The process's fields that only `moveEnd` changes. -/
structure SameHeap (P P' : Process) : Prop where
  heapStart : P'.heapStart = P.heapStart
  heapEnd : P'.heapEnd = P.heapEnd
  poolSize : P'.poolSize = P.poolSize

theorem SameHeap.refl (P : Process) : SameHeap P P := ⟨rfl, rfl, rfl⟩

theorem SameHeap.trans {P P' P'' : Process} (h : SameHeap P P') (h' : SameHeap P' P'') :
    SameHeap P P'' :=
  ⟨h'.heapStart.trans h.heapStart, h'.heapEnd.trans h.heapEnd, h'.poolSize.trans h.poolSize⟩

variable {P P' P'' : Process}

/-- The number of the first page above user space. -/
def userPages : ℕ := 0xc0000

/-- The addresses of user pages. -/
theorem isUserVaddr_page {a : UInt32} {p : ℕ} (ha : a.toNat = 4096 * p) :
    isUserVaddr a = true ↔ p < userPages := by
  have hbase : physBase.toNat = 4096 * userPages := rfl
  rw [isUserVaddr, decide_eq_true_iff, UInt32.lt_iff_toNat_lt, ha, hbase]
  omega

theorem pgNo_page {a : UInt32} {p : ℕ} (ha : a.toNat = 4096 * p) : pgNo a = p := by
  rw [pgNo, ha]
  omega

theorem pgOfs_page {a : UInt32} {p : ℕ} (ha : a.toNat = 4096 * p) : pgOfs a = 0 := by
  refine UInt32.toNat_inj.1 ?_
  rw [pgOfs_toNat, ha]
  exact Nat.mul_mod_right 4096 p

theorem toNat_pgsize : pgsize.toNat = 4096 := rfl

/-! ### Taking pages out -/

/-- The pages from `p` on are taken out, and their frames are free. -/
structure Unmapped (P : Process) (p n : ℕ) (P' : Process) : Prop where
  same : SameHeap P P'
  pagedir : ∀ q, P'.pagedir q = if p ≤ q ∧ q < p + n then none else P.pagedir q
  used : ∀ f, P'.used f = true ↔
    P.used f = true ∧ ∀ q, p ≤ q → q < p + n → P.pagedir q ≠ some f
  content : ∀ f, P'.used f = true → P'.content f = P.content f
  freed : P'.freed = P.freed ++ (List.range' p n).map P.pagedir

theorem Unmapped.refl (P : Process) (p : ℕ) : Unmapped P p 0 P where
  same := .refl P
  pagedir q := by rw [if_neg (by omega)]
  used f := ⟨fun h => ⟨h, fun q hpq hq => absurd hq (by omega)⟩, And.left⟩
  content _ _ := rfl
  freed := by simp

theorem Unmapped.backed {p n : ℕ} (h : Unmapped P p n P') (hb : Backed P) : Backed P' := by
  have hkept : ∀ {q f}, P'.pagedir q = some f → P.pagedir q = some f ∧ ¬(p ≤ q ∧ q < p + n) := by
    intro q f hq
    rw [h.pagedir] at hq
    split_ifs at hq with hin
    exact ⟨hq, hin⟩
  refine ⟨fun hq => ?_, fun hq hr => hb.own (hkept hq).1 (hkept hr).1⟩
  obtain ⟨hq, hout⟩ := hkept hq
  obtain ⟨hlt, hused⟩ := hb.used hq
  refine ⟨h.same.poolSize ▸ hlt, (h.used _).2 ⟨hused, fun r hpr hr hrf => ?_⟩⟩
  rw [hb.own hrf hq] at hpr hr
  exact hout ⟨hpr, hr⟩

/-- One more page in front of those taken out. -/
theorem Unmapped.cons {p n : ℕ} (h : Unmapped P p 1 P') (h' : Unmapped P' (p + 1) n P'') :
    Unmapped P p (n + 1) P'' where
  same := h.same.trans h'.same
  pagedir q := by
    rw [h'.pagedir, h.pagedir]
    split_ifs <;> first | rfl | omega
  used f := by
    rw [h'.used, h.used]
    constructor
    · rintro ⟨⟨hused, hp⟩, hrest⟩
      refine ⟨hused, fun q hpq hq => ?_⟩
      rcases Nat.eq_or_lt_of_le hpq with rfl | hlt
      · exact hp p (Nat.le_refl p) (Nat.lt_succ_self p)
      · have hne := hrest q hlt (by omega)
        rwa [h.pagedir, if_neg (by omega)] at hne
    · rintro ⟨hused, hall⟩
      refine ⟨⟨hused, fun q hpq hq => hall q hpq (by omega)⟩, fun q hpq hq => ?_⟩
      rw [h.pagedir, if_neg (by omega)]
      exact hall q (by omega) (by omega)
  content f hf := (h'.content f hf).trans (h.content f ((h'.used f).1 hf).1)
  freed := by
    have hmap : (List.range' (p + 1) n).map P'.pagedir = (List.range' (p + 1) n).map P.pagedir := by
      refine List.map_congr_left fun q hq => ?_
      rw [h.pagedir, if_neg]
      have := (List.mem_range'_1.1 hq).1
      omega
    rw [h'.freed, h.freed, hmap, List.range'_succ, List.map_cons, List.append_assoc]
    rfl

/-- **One page is taken out.** -/
theorem unmapPage_returns {p : ℕ} {start : UInt32} (hb : Backed P) (ha : start.toNat = 4096 * p)
    (hp : p < userPages) : Returns (unmapPage start) P fun _ P' => Unmapped P p 1 P' := by
  have huser : isUserVaddr start = true := (isUserVaddr_page ha).2 hp
  unfold unmapPage pagedirGetPage
  refine Returns.bind ?_
  rw [returns_get_bind, if_neg (by simp [huser]), returns_pure, pgNo_page ha]
  unfold pallocFreePage pagedirClearPage
  rw [if_neg (by rw [pgOfs_page ha]; simp), if_neg (by simp [huser]), pgNo_page ha]
  refine Returns.bind ?_
  rw [returns_modify_bind, returns_get_bind]
  cases hpage : P.pagedir p with
  | none =>
    dsimp only
    rw [returns_pure, returns_modify]
    refine ⟨⟨rfl, rfl, rfl⟩, fun q => ?_, fun f => ?_, fun _ _ => rfl, by simp [hpage]⟩
    · by_cases hq : q = p
      · subst hq
        rw [if_pos (by omega)]
        exact Function.update_self ..
      · rw [if_neg (by omega)]
        exact Function.update_of_ne hq ..
    · refine ⟨fun h => ⟨h, fun q hpq hq => ?_⟩, And.left⟩
      obtain rfl : q = p := by omega
      rw [hpage]
      exact fun he => by cases he
  | some f =>
    dsimp only
    rw [if_pos (hb.used hpage)]
    refine ⟨_, _, rfl, returns_modify.2 ?_⟩
    refine ⟨⟨rfl, rfl, rfl⟩, fun q => ?_, fun g => ?_, fun g hg => ?_, by simp [hpage]⟩
    · by_cases hq : q = p
      · subst hq
        rw [if_pos (by omega)]
        exact Function.update_self ..
      · rw [if_neg (by omega)]
        exact Function.update_of_ne hq ..
    · by_cases hg : g = f
      · subst hg
        dsimp only
        rw [Function.update_self]
        refine iff_of_false Bool.false_ne_true fun h => h.2 p (Nat.le_refl p) (by omega) hpage
      · dsimp only
        rw [Function.update_of_ne hg]
        refine ⟨fun h => ⟨h, fun q hpq hq => ?_⟩, And.left⟩
        obtain rfl : q = p := by omega
        rw [hpage]
        exact fun he => hg (Option.some.inj he).symm
    · by_cases hgf : g = f
      · subst hgf
        dsimp only at hg
        rw [Function.update_self] at hg
        exact absurd hg Bool.false_ne_true
      · exact Function.update_of_ne hgf ..

/-- **A row of user pages is taken out.** -/
theorem unmapPages_returns {n p : ℕ} {start : UInt32} (hb : Backed P)
    (ha : start.toNat = 4096 * p) (hroom : ∀ q, p ≤ q → q < p + n → q < userPages) :
    Returns (unmapPages n start) P fun _ P' => Unmapped P p n P' := by
  have husers : userPages = 0xc0000 := rfl
  induction n generalizing P p start with
  | zero => exact returns_pure.2 (.refl P p)
  | succ n ih =>
    have hp : p < userPages := hroom p (Nat.le_refl p) (by omega)
    have hnext : (start + pgsize).toNat = 4096 * (p + 1) := by
      rw [UInt32.toNat_add, ha, toNat_pgsize]
      omega
    refine (unmapPage_returns hb ha hp).seq fun _ P₁ h₁ => ?_
    have hrest : ∀ q, p + 1 ≤ q → q < p + 1 + n → q < userPages := fun q hpq hq =>
      hroom q (by omega) (by omega)
    exact (ih (h₁.backed hb) hnext hrest).mono fun _ P₂ h₂ => h₁.cons h₂

/-- A row that reaches beyond user space fails an assertion. -/
theorem unmapPages_stuck {n p : ℕ} {start : UInt32} (hb : Backed P)
    (ha : start.toNat = 4096 * p) (hpos : 0 < n) (hroom : userPages < p + n) :
    Ensures (unmapPages n start) P fun _ _ => False := by
  have husers : userPages = 0xc0000 := rfl
  induction n generalizing P p start with
  | zero => cases hpos
  | succ n ih =>
    by_cases hp : p < userPages
    · have hnext : (start + pgsize).toNat = 4096 * (p + 1) := by
        rw [UInt32.toNat_add, ha, toNat_pgsize]
        omega
      refine Ensures.seq (unmapPage_returns hb ha hp).ensures fun _ P₁ h₁ => ?_
      exact ih (h₁.backed hb) hnext (by omega) (by omega)
    · have huser : isUserVaddr start = false := by
        rw [← Bool.not_eq_true, isUserVaddr_page ha]
        exact hp
      refine Ensures.seq (P := fun _ _ => False) ?_ fun _ _ h => h.elim
      unfold unmapPage pagedirGetPage
      refine Ensures.seq (P := fun _ _ => False) ?_ fun _ _ h => h.elim
      rw [ensures_get_bind, if_pos huser]
      exact ensures_halt

/-! ### Putting pages in -/

/-- The frames that are free. -/
def Process.free (P : Process) : Finset ℕ :=
  (Finset.range P.poolSize).filter fun f => P.used f = false

theorem mem_free {f : ℕ} : f ∈ P.free ↔ f < P.poolSize ∧ P.used f = false := by
  rw [Process.free, Finset.mem_filter, Finset.mem_range]

/-- The pages from `p` on are user pages that are not present. -/
def Process.Vacant (P : Process) (p k : ℕ) : Prop :=
  ∀ q, p ≤ q → q < p + k → q < userPages ∧ P.pagedir q = none

/-- Memory for `k` pages. -/
def Process.Granted (P : Process) (k : ℕ) : Prop :=
  k ≤ P.free.card ∧ ∀ i < k, P.grants i = true ∧ P.tables i = true

/-- Request `k` for a frame is granted, when those before it have been. -/
def Process.HasFrame (P : Process) (k : ℕ) : Prop := k < P.free.card ∧ P.grants k = true

/-- The pages from `p` on are present, with zeroed frames that were free. -/
structure Mapped (P : Process) (p k : ℕ) (P' : Process) : Prop where
  same : SameHeap P P'
  outside : ∀ q, ¬(p ≤ q ∧ q < p + k) → P'.pagedir q = P.pagedir q
  inside : ∀ q, p ≤ q → q < p + k →
    ∃ f, P'.pagedir q = some f ∧ P.used f = false ∧ P'.content f = fun _ => 0
  used : ∀ f, P'.used f = true ↔ P.used f = true ∨ ∃ q, p ≤ q ∧ q < p + k ∧ P'.pagedir q = some f
  content : ∀ f, P.used f = true → P'.content f = P.content f
  freed : P'.freed = P.freed
  backed : Backed P'
  free : P'.free.card + k = P.free.card
  grants : ∀ n, P'.grants n = P.grants (n + k)
  tables : ∀ n, P'.tables n = P.tables (n + k)

/-- A page in the way gets a frame. -/
def Process.Collides (P : Process) (p n : ℕ) : Prop :=
  ∃ k < n, P.Vacant p k ∧ P.Granted k ∧ P.HasFrame k ∧ ¬P.Vacant (p + k) 1

/-- All is as before; only frames that were free before have been freed. -/
structure Restored (P P' : Process) : Prop where
  same : SameHeap P P'
  pagedir : P'.pagedir = P.pagedir
  used : P'.used = P.used
  content : ∀ f, P.used f = true → P'.content f = P.content f
  freed : ∃ fs, P'.freed = P.freed ++ fs ∧ ∀ page ∈ fs, ∃ f, page = some f ∧ P.used f = false

theorem Restored.backed (h : Restored P P') (hb : Backed P) : Backed P' := by
  refine ⟨fun hq => ?_, fun hq hr => ?_⟩
  · rw [h.pagedir] at hq
    rw [h.same.poolSize, h.used]
    exact hb.used hq
  · rw [h.pagedir] at hq hr
    exact hb.own hq hr

theorem Mapped.refl (hb : Backed P) (p : ℕ) : Mapped P p 0 P where
  same := .refl P
  outside _ _ := rfl
  inside q hpq hq := absurd hq (by omega)
  used f := ⟨.inl, fun h => h.elim id fun ⟨q, hpq, hq, _⟩ => absurd hq (by omega)⟩
  content _ _ := rfl
  freed := rfl
  backed := hb
  free := rfl
  grants _ := rfl
  tables _ := rfl

/-- A frame that has been put in stays in use. -/
theorem Mapped.used_of_used {p k f : ℕ} (h : Mapped P p k P') (hf : P.used f = true) :
    P'.used f = true :=
  (h.used f).2 (.inl hf)

/-- One more page behind those that are present. -/
theorem Mapped.trans {p k : ℕ} (h : Mapped P p k P') (h' : Mapped P' (p + k) 1 P'') :
    Mapped P p (k + 1) P'' where
  same := h.same.trans h'.same
  outside q hq := by rw [h'.outside q (by omega), h.outside q (by omega)]
  inside q hpq hq := by
    by_cases hlast : q = p + k
    · obtain ⟨f, hf, hused, hzero⟩ := h'.inside q (by omega) (by omega)
      refine ⟨f, hf, ?_, hzero⟩
      rw [← Bool.not_eq_true] at hused ⊢
      exact fun hold => hused (h.used_of_used hold)
    · obtain ⟨f, hf, hused, hzero⟩ := h.inside q hpq (by omega)
      refine ⟨f, by rw [h'.outside q (by omega), hf], hused, ?_⟩
      rw [h'.content f ((h.used f).2 (.inr ⟨q, hpq, by omega, hf⟩)), hzero]
  used f := by
    rw [h'.used, h.used]
    constructor
    · rintro ((hold | ⟨q, hpq, hq, hf⟩) | ⟨q, hpq, hq, hf⟩)
      · exact .inl hold
      · exact .inr ⟨q, hpq, by omega, by rw [h'.outside q (by omega), hf]⟩
      · exact .inr ⟨q, by omega, by omega, hf⟩
    · rintro (hold | ⟨q, hpq, hq, hf⟩)
      · exact .inl (.inl hold)
      · by_cases hlast : q = p + k
        · exact .inr ⟨q, by omega, by omega, hf⟩
        · rw [h'.outside q (by omega)] at hf
          exact .inl (.inr ⟨q, hpq, by omega, hf⟩)
  content f hf := (h'.content f (h.used_of_used hf)).trans (h.content f hf)
  freed := h'.freed.trans h.freed
  backed := h'.backed
  free := by
    have h1 := h.free
    have h2 := h'.free
    omega
  grants n := by rw [h'.grants, h.grants, Nat.add_assoc, Nat.add_comm 1]
  tables n := by rw [h'.tables, h.tables, Nat.add_assoc, Nat.add_comm 1]

/-- **Putting everything back.** -/
theorem Mapped.restored {p k : ℕ} {P₃ : Process} (h : Mapped P p k P') (hvacant : P.Vacant p k)
    (h' : Restored P' P'') (h'' : Unmapped P'' p k P₃) : Restored P P₃ where
  same := (h.same.trans h'.same).trans h''.same
  pagedir := by
    funext q
    rw [h''.pagedir, h'.pagedir]
    split_ifs with hin
    · exact ((hvacant q hin.1 hin.2).2).symm
    · exact h.outside q hin
  used := by
    funext f
    rw [Bool.eq_iff_iff, h''.used, h'.used, h'.pagedir, h.used]
    constructor
    · rintro ⟨hold | ⟨q, hpq, hq, hf⟩, hall⟩
      · exact hold
      · exact absurd hf (hall q hpq hq)
    · intro hold
      refine ⟨.inl hold, fun q hpq hq hf => ?_⟩
      obtain ⟨g, hg, hnew, -⟩ := h.inside q hpq hq
      rw [Option.some.inj (hg.symm.trans hf), hold] at hnew
      cases hnew
  content f hf := by
    have hf₁ := h.used_of_used hf
    have hf₃ : P₃.used f = true := by
      refine (h''.used f).2 ⟨h'.used ▸ hf₁, fun q hpq hq hqf => ?_⟩
      rw [h'.pagedir] at hqf
      obtain ⟨g, hg, hnew, -⟩ := h.inside q hpq hq
      rw [Option.some.inj (hg.symm.trans hqf), hf] at hnew
      cases hnew
    rw [h''.content f hf₃, h'.content f hf₁, h.content f hf]
  freed := by
    obtain ⟨fs, hfs, hnew⟩ := h'.freed
    refine ⟨fs ++ (List.range' p k).map P''.pagedir, ?_, fun page hpage => ?_⟩
    · rw [h''.freed, hfs, h.freed, List.append_assoc]
    · rcases List.mem_append.1 hpage with hpage | hpage
      · obtain ⟨f, rfl, hf⟩ := hnew page hpage
        refine ⟨f, rfl, ?_⟩
        rw [← Bool.not_eq_true] at hf ⊢
        exact fun hold => hf (h.used_of_used hold)
      · obtain ⟨q, hq, rfl⟩ := List.mem_map.1 hpage
        obtain ⟨hpq, hqk⟩ := List.mem_range'_1.1 hq
        obtain ⟨f, hf, hused, -⟩ := h.inside q hpq hqk
        exact ⟨f, by rw [h'.pagedir, hf], hused⟩

/-- The process after a request for a frame. -/
def Process.asked (P : Process) : Process := { P with grants := fun n => P.grants (n + 1) }

/-- The process that has been given frame `f`. -/
def Process.took (P : Process) (f : ℕ) : Process :=
  { P.asked with
    used := Function.update P.used f true
    content := Function.update P.content f fun _ => 0 }

/-- No frame is to be had. -/
theorem pallocGetPage_none (h : ¬P.HasFrame 0) :
    Returns pallocGetPage P fun page P' => page = none ∧ P' = P.asked := by
  unfold pallocGetPage
  rw [returns_get_bind, returns_set_bind]
  cases hfind : (List.range P.poolSize).find? fun f => !P.used f with
  | none => exact returns_pure.2 ⟨rfl, rfl⟩
  | some f =>
    have hfree : f ∈ P.free := by
      refine mem_free.2 ⟨List.mem_range.1 (List.mem_of_find?_eq_some hfind), ?_⟩
      simpa using List.find?_some hfind
    have hgrant : P.grants 0 ≠ true := fun hg => h ⟨Finset.card_pos.2 ⟨f, hfree⟩, hg⟩
    dsimp only
    rw [if_neg hgrant]
    exact returns_pure.2 ⟨rfl, rfl⟩

/-- A free frame, zeroed. -/
theorem pallocGetPage_some (h : P.HasFrame 0) :
    Returns pallocGetPage P fun page P' => ∃ f ∈ P.free, page = some f ∧ P' = P.took f := by
  obtain ⟨hcard, hgrant⟩ := h
  obtain ⟨g, hg⟩ := Finset.card_pos.1 hcard
  rw [mem_free] at hg
  unfold pallocGetPage
  rw [returns_get_bind, returns_set_bind]
  cases hfind : (List.range P.poolSize).find? fun f => !P.used f with
  | none =>
    have := List.find?_eq_none.1 hfind g (List.mem_range.2 hg.1)
    simp [hg.2] at this
  | some f =>
    have hfree : f ∈ P.free := by
      refine mem_free.2 ⟨List.mem_range.1 (List.mem_of_find?_eq_some hfind), ?_⟩
      simpa using List.find?_some hfind
    dsimp only
    rw [if_pos hgrant, returns_modify_bind, returns_pure]
    exact ⟨f, hfree, rfl, rfl⟩

/-- The process with frame `f` at page `p`. -/
def Process.put (P : Process) (p f : ℕ) : Process :=
  { P.took f with
    tables := fun n => P.tables (n + 1)
    pagedir := Function.update P.pagedir p (some f) }

@[simp] theorem took_pagedir (f : ℕ) : (P.took f).pagedir = P.pagedir := rfl

@[simp] theorem took_tables (f : ℕ) : (P.took f).tables = P.tables := rfl

theorem took_used_self (f : ℕ) : (P.took f).used f = true := Function.update_self ..

theorem took_used_of_ne {f g : ℕ} (h : g ≠ f) : (P.took f).used g = P.used g :=
  Function.update_of_ne h ..

theorem put_pagedir_self (p f : ℕ) : (P.put p f).pagedir p = some f := Function.update_self ..

theorem put_pagedir_of_ne {p q : ℕ} (f : ℕ) (h : q ≠ p) : (P.put p f).pagedir q = P.pagedir q :=
  Function.update_of_ne h ..

@[simp] theorem put_used (p f : ℕ) : (P.put p f).used = (P.took f).used := rfl

/-- Frames in use are not the one taken. -/
theorem ne_of_used {f g : ℕ} (hf : f ∈ P.free) (hg : P.used g = true) : g ≠ f := by
  rintro rfl
  rw [(mem_free.1 hf).2] at hg
  cases hg

theorem put_free {p f : ℕ} : (P.put p f).free = P.free.erase f := by
  ext g
  rw [mem_free, Finset.mem_erase, mem_free, put_used]
  by_cases hg : g = f
  · subst hg
    simp [took_used_self]
  · rw [took_used_of_ne hg]
    exact ⟨fun h => ⟨hg, h⟩, And.right⟩

/-- **The row grows by a page.** -/
theorem put_mapped {p f : ℕ} (hb : Backed P) (hf : f ∈ P.free) (hvacant : P.pagedir p = none) :
    Mapped P p 1 (P.put p f) where
  same := ⟨rfl, rfl, rfl⟩
  outside q hq := put_pagedir_of_ne f (by omega)
  inside q hpq hq := by
    obtain rfl : q = p := by omega
    exact ⟨f, put_pagedir_self q f, (mem_free.1 hf).2, Function.update_self ..⟩
  used g := by
    rw [put_used]
    by_cases hg : g = f
    · subst hg
      rw [took_used_self]
      exact iff_of_true rfl (.inr ⟨p, Nat.le_refl p, by omega, put_pagedir_self p g⟩)
    · rw [took_used_of_ne hg]
      refine ⟨.inl, fun h => h.elim id ?_⟩
      rintro ⟨q, hpq, hq, hqg⟩
      obtain rfl : q = p := by omega
      rw [put_pagedir_self] at hqg
      exact absurd (Option.some.inj hqg).symm hg
  content g hg := Function.update_of_ne (ne_of_used hf hg) ..
  freed := rfl
  backed := by
    refine ⟨fun {q g} hq => ?_, fun {q r g} hq hr => ?_⟩
    · rw [put_used]
      by_cases hqp : q = p
      · subst hqp
        rw [put_pagedir_self] at hq
        obtain rfl := Option.some.inj hq
        exact ⟨(mem_free.1 hf).1, took_used_self f⟩
      · rw [put_pagedir_of_ne f hqp] at hq
        obtain ⟨hlt, hused⟩ := hb.used hq
        exact ⟨hlt, (took_used_of_ne (ne_of_used hf hused)).trans hused⟩
    · by_cases hqp : q = p <;> by_cases hrp : r = p
      · rw [hqp, hrp]
      · subst hqp
        rw [put_pagedir_self] at hq
        rw [put_pagedir_of_ne f hrp] at hr
        exact absurd (Option.some.inj hq).symm (ne_of_used hf (hb.used hr).2)
      · subst hrp
        rw [put_pagedir_self] at hr
        rw [put_pagedir_of_ne f hqp] at hq
        exact absurd (Option.some.inj hr).symm (ne_of_used hf (hb.used hq).2)
      · rw [put_pagedir_of_ne f hqp] at hq
        rw [put_pagedir_of_ne f hrp] at hr
        exact hb.own hq hr
  free := by
    rw [put_free]
    exact Finset.card_erase_add_one hf
  grants _ := rfl
  tables _ := rfl

section Page

variable {p : ℕ} {upage : UInt32} (ha : upage.toNat = 4096 * p)

include ha

/-- **A page gets a frame and a page table.** -/
theorem mapPage_mapped (hb : Backed P) (hframe : P.HasFrame 0) (hvacant : P.Vacant p 1)
    (htable : P.tables 0 = true) :
    Returns (mapPage upage) P fun ok P' => ok = true ∧ Mapped P p 1 P' := by
  obtain ⟨hp, hnone⟩ := hvacant p (Nat.le_refl p) (by omega)
  have huser : isUserVaddr upage = true := (isUserVaddr_page ha).2 hp
  unfold mapPage
  refine (pallocGetPage_some hframe).seq fun page P₁ hpage => ?_
  obtain ⟨f, hf, rfl, rfl⟩ := hpage
  dsimp only
  refine Returns.bind ?_
  unfold pagedirSetPage
  rw [returns_get_bind, if_neg (by rw [pgOfs_page ha]; simp), if_neg (by simp [huser]),
    pgNo_page ha, took_pagedir, hnone, if_neg (by simp), returns_set_bind, took_tables,
    if_pos htable, returns_modify_bind, returns_pure, if_pos rfl, returns_pure]
  exact ⟨rfl, put_mapped hb hf hnone⟩

/-- **A page gets none.** -/
theorem mapPage_restored
    (h : ¬P.HasFrame 0 ∨ P.Vacant p 1 ∧ P.tables 0 = false) :
    Returns (mapPage upage) P fun ok P' => ok = false ∧ Restored P P' := by
  unfold mapPage
  by_cases hframe : P.HasFrame 0
  · obtain ⟨hvacant, htable⟩ := h.resolve_left (not_not_intro hframe)
    obtain ⟨hp, hnone⟩ := hvacant p (Nat.le_refl p) (by omega)
    have huser : isUserVaddr upage = true := (isUserVaddr_page ha).2 hp
    refine (pallocGetPage_some hframe).seq fun page P₁ hpage => ?_
    obtain ⟨f, hf, rfl, rfl⟩ := hpage
    obtain ⟨hlt, hunused⟩ := mem_free.1 hf
    have hclear : P.tables 0 ≠ true := by simp [htable]
    dsimp only
    refine Returns.bind ?_
    unfold pagedirSetPage
    rw [returns_get_bind, if_neg (by rw [pgOfs_page ha]; simp), if_neg (by simp [huser]),
      pgNo_page ha, took_pagedir, hnone, if_neg (by simp), returns_set_bind, took_tables,
      if_neg hclear, returns_pure, if_neg Bool.false_ne_true]
    unfold pallocFreePage
    refine Returns.bind ?_
    rw [returns_modify_bind, returns_get_bind]
    dsimp only
    rw [if_pos ⟨hlt, took_used_self f⟩]
    refine ⟨_, _, rfl, returns_pure.2
      ⟨rfl, ⟨rfl, rfl, rfl⟩, rfl, ?_, fun g hg => ?_, [some f], rfl, ?_⟩⟩
    · show Function.update (Function.update P.used f true) f false = P.used
      rw [Function.update_idem, ← hunused, Function.update_eq_self]
    · have hgf := ne_of_used hf hg
      exact (Function.update_of_ne hgf ..).trans (Function.update_of_ne hgf ..)
    · simpa using hunused
  · refine (pallocGetPage_none hframe).seq fun page P₁ hpage => ?_
    obtain ⟨rfl, rfl⟩ := hpage
    exact returns_pure.2 ⟨rfl, ⟨rfl, rfl, rfl⟩, rfl, rfl, fun _ _ => rfl, [], by simp [Process.asked],
      by simp⟩

/-- A frame for a page that is present, or not a user page. -/
theorem mapPage_stuck (hframe : P.HasFrame 0) (hvacant : ¬P.Vacant p 1) :
    Ensures (mapPage upage) P fun _ _ => False := by
  unfold mapPage
  refine Ensures.seq (pallocGetPage_some hframe).ensures fun page P₁ hpage => ?_
  obtain ⟨f, hf, rfl, rfl⟩ := hpage
  dsimp only
  refine Ensures.seq (P := fun _ _ => False) ?_ fun _ _ h => h.elim
  unfold pagedirSetPage
  rw [ensures_get_bind, if_neg (by rw [pgOfs_page ha]; simp), pgNo_page ha, took_pagedir]
  by_cases huser : isUserVaddr upage = false
  · rw [if_pos huser]
    exact ensures_halt
  · have hpresent : (P.pagedir p).isSome = true := by
      rw [Option.isSome_iff_ne_none]
      intro hnone
      refine hvacant fun q hpq hq => ?_
      obtain rfl : q = p := by omega
      exact ⟨(isUserVaddr_page ha).1 (by simpa using huser), hnone⟩
    rw [if_neg huser, if_pos hpresent]
    exact ensures_halt

end Page

theorem Process.Vacant.succ {p k : ℕ} (h : P.Vacant p k) (h' : P.Vacant (p + k) 1) :
    P.Vacant p (k + 1) := by
  intro q hpq hq
  by_cases hlast : q = p + k
  · exact h' q (by omega) (by omega)
  · exact h q hpq (by omega)

theorem Process.Granted.succ {k : ℕ} (h : P.Granted k) (hframe : P.HasFrame k)
    (htable : P.tables k = true) : P.Granted (k + 1) := by
  refine ⟨hframe.1, fun i hi => ?_⟩
  rcases Nat.lt_succ_iff_lt_or_eq.1 hi with hlt | rfl
  · exact h.2 i hlt
  · exact ⟨hframe.2, htable⟩

section Row

variable {p now : ℕ}

/-- Where memory runs out first, no page is in the way. -/
theorem not_collides {n : ℕ} (hv : P.Vacant p now)
    (hrefused : ¬P.HasFrame now ∨ P.Vacant (p + now) 1 ∧ P.tables now = false) :
    ¬P.Collides p n := by
  rintro ⟨k, -, -, hgranted, hframe, hblocked⟩
  rcases Nat.lt_trichotomy k now with hlt | rfl | hgt
  · exact hblocked fun q hpq hq => hv q (by omega) (by omega)
  · exact hrefused.elim (fun h => h hframe) fun h => hblocked h.1
  · obtain ⟨hgrant, htable⟩ := hgranted.2 now hgt
    rcases hrefused with hno | ⟨-, hno⟩
    · exact hno ⟨Nat.lt_of_lt_of_le hgt hgranted.1, hgrant⟩
    · rw [htable] at hno
      cases hno

/-- What is known of the next request. -/
theorem Mapped.hasFrame (h : Mapped P p now P') : P'.HasFrame 0 ↔ P.HasFrame now := by
  have hfree := h.free
  unfold Process.HasFrame
  rw [h.grants, Nat.zero_add]
  refine and_congr_left fun _ => ?_
  omega

theorem Mapped.vacant (h : Mapped P p now P') : P'.Vacant (p + now) 1 ↔ P.Vacant (p + now) 1 := by
  unfold Process.Vacant
  refine forall_congr' fun q => forall_congr' fun hpq => forall_congr' fun hq => ?_
  rw [h.outside q (by omega)]

/-- How the loop that puts pages in ends, from any turn on. -/
theorem mapPages_now {n : ℕ} {first : UInt32} (hfirst : first.toNat = 4096 * p)
    (hm : Mapped P p now P') (hv : P.Vacant p now) (hg : P.Granted now) :
    (P.Vacant p (now + n) ∧ P.Granted (now + n) ∧
      Returns (mapPages first n now) P' fun ok P'' => ok = true ∧ Mapped P p (now + n) P'') ∨
    (¬P.Granted (now + n) ∧ ¬P.Collides p (now + n) ∧
      Returns (mapPages first n now) P' fun ok P'' => ok = false ∧ Restored P P'') ∨
    P.Collides p (now + n) ∧ Ensures (mapPages first n now) P' fun _ _ => False := by
  have husers : userPages = 0xc0000 := rfl
  induction n generalizing now P' with
  | zero => exact .inl ⟨hv, hg, returns_pure.2 ⟨rfl, hm⟩⟩
  | succ n ih =>
    -- the pages so far are user pages, so the address does not wrap
    have hbound : p + now < 2 ^ 20 := by
      have hlt := first.toNat_lt
      rcases Nat.eq_zero_or_pos now with rfl | hpos
      · omega
      · have := (hv (p + (now - 1)) (by omega) (by omega)).1
        omega
    have haddr : (first + UInt32.ofNat now * pgsize).toNat = 4096 * (p + now) := by
      rw [UInt32.toNat_add, UInt32.toNat_mul, UInt32.toNat_ofNat', hfirst, toNat_pgsize]
      omega
    have hsum : now + 1 + n = now + (n + 1) := by omega
    have hback : (¬P'.HasFrame 0 ∨ P'.Vacant (p + now) 1 ∧ P'.tables 0 = false) →
        Returns (mapPages first (n + 1) now) P' fun ok P'' => ok = false ∧ Restored P P'' := by
      intro hrefused
      refine (mapPage_restored haddr hrefused).seq fun ok P₁ h₁ => ?_
      obtain ⟨rfl, hrestored⟩ := h₁
      rw [if_neg Bool.false_ne_true]
      refine (unmapPages_returns (hrestored.backed hm.backed) hfirst fun q hpq hq =>
        (hv q hpq hq).1).seq fun _ P₂ h₂ => ?_
      exact returns_pure.2 ⟨rfl, hm.restored hv hrestored h₂⟩
    by_cases hframe : P.HasFrame now
    · by_cases hvacant : P.Vacant (p + now) 1
      · by_cases htable : P.tables now = true
        · -- the row grows
          have hstep := mapPage_mapped haddr hm.backed (hm.hasFrame.2 hframe) (hm.vacant.2 hvacant)
            (by rw [hm.tables, Nat.zero_add, htable])
          obtain ⟨ok, P₁, hrun, rfl, h₁⟩ := hstep
          have hrest := ih (hm.trans h₁) (hv.succ hvacant) (hg.succ hframe htable)
          rw [hsum] at hrest
          unfold mapPages
          rw [returns_bind_of_run hrun, returns_bind_of_run hrun, ensures_bind_of_run hrun,
            if_pos rfl]
          exact hrest
        · have hno : P.tables now = false := Bool.of_not_eq_true htable
          refine .inr (.inl ⟨fun h => htable (h.2 now (by omega)).2,
            not_collides hv (.inr ⟨hvacant, hno⟩), hback (.inr ⟨hm.vacant.2 hvacant, ?_⟩)⟩)
          rw [hm.tables, Nat.zero_add, hno]
      · refine .inr (.inr ⟨⟨now, by omega, hv, hg, hframe, hvacant⟩, ?_⟩)
        exact Ensures.seq (mapPage_stuck haddr (hm.hasFrame.2 hframe)
          fun h => hvacant (hm.vacant.1 h)) fun _ _ h => h.elim
    · refine .inr (.inl ⟨fun h => hframe ⟨?_, (h.2 now (by omega)).1⟩,
        not_collides hv (.inl hframe), ?_⟩)
      · exact Nat.lt_of_lt_of_le (by omega) h.1
      · exact hback (.inl fun h => hframe (hm.hasFrame.1 h))

end Row

/-- **The pages of a row are put in, or none of them is, or a page is in the way.** -/
theorem mapPages_cases {n p : ℕ} {first : UInt32} (hb : Backed P)
    (hfirst : first.toNat = 4096 * p) :
    (P.Vacant p n ∧ P.Granted n ∧
      Returns (mapPages first n 0) P fun ok P' => ok = true ∧ Mapped P p n P') ∨
    (¬P.Granted n ∧ ¬P.Collides p n ∧
      Returns (mapPages first n 0) P fun ok P' => ok = false ∧ Restored P P') ∨
    P.Collides p n ∧ Ensures (mapPages first n 0) P fun _ _ => False := by
  have h := mapPages_now (n := n) hfirst (Mapped.refl hb p) (fun q hpq hq => absurd hq (by omega))
    ⟨Nat.zero_le _, fun i hi => absurd hi (Nat.not_lt_zero i)⟩
  rwa [Nat.zero_add] at h

/-! ### The number of pages -/

/-- The page that an address is rounded up to. -/
def roundPage (va : UInt32) : ℕ := (va.toNat + 4095) % 2 ^ 32 / 4096

theorem pgRoundUp_toNat (va : UInt32) : (pgRoundUp va).toNat = 4096 * roundPage va := by
  have hsum : (va + pgsize - 1).toNat = (va.toNat + 4095) % 2 ^ 32 := by
    have hone : (1 : UInt32).toNat = 1 := rfl
    rw [UInt32.toNat_sub, UInt32.toNat_add, hone, toNat_pgsize]
    omega
  rw [pgRoundUp, and_not_pgmask, hsum, roundPage, Nat.mul_comm]

theorem toNat_ofInt (x : ℤ) : (UInt32.ofInt x).toNat = (x % 2 ^ 32).toNat := by
  rw [UInt32.ofInt, UInt32.toNat_ofNat']
  omega

theorem toOff_of_ge {x : UInt32} (h : 2 ^ 31 ≤ x.toNat) : toOff x = x.toNat - 2 ^ 32 :=
  if_neg (Nat.not_lt.2 h)

/-- **`pages_num`**: the distance in pages, but for a distance of `2 ^ 31` bytes. -/
theorem pagesNum_toNat (heapEnd increment : UInt32) {d : ℕ}
    (hd : d = (roundPage heapEnd + 2 ^ 20 - roundPage (heapEnd + increment)) % 2 ^ 20) :
    (pagesNum heapEnd increment).toNat =
      if d < 2 ^ 19 then d else if d = 2 ^ 19 then 2 ^ 32 - 2 ^ 19 else 2 ^ 20 - d := by
  have hA := pgRoundUp_toNat heapEnd
  have hB := pgRoundUp_toNat (heapEnd + increment)
  have hAlt := (pgRoundUp heapEnd).toNat_lt
  have hBlt := (pgRoundUp (heapEnd + increment)).toNat_lt
  unfold pagesNum
  have hx : (pgRoundUp heapEnd - pgRoundUp (heapEnd + increment)).toNat = 4096 * d := by
    rw [UInt32.toNat_sub]
    omega
  revert hx
  generalize pgRoundUp heapEnd - pgRoundUp (heapEnd + increment) = x
  intro hx
  rw [toNat_ofInt]
  have hzero : (0 - x).toNat = (2 ^ 32 - 4096 * d) % 2 ^ 32 := by
    rw [UInt32.toNat_sub, hx]
    have h0 : (0 : UInt32).toNat = 0 := rfl
    omega
  have hdlt : d < 2 ^ 20 := by omega
  by_cases hsmall : d < 2 ^ 19
  · have hoff : toOff x = 4096 * d := by
      rw [toOff_of_lt (by omega), hx]
      omega
    rw [if_pos hsmall, abs, if_neg (by omega), hoff, Int.tdiv_eq_ediv_of_nonneg (by omega)]
    omega
  · have hoff : toOff x = 4096 * d - 2 ^ 32 := by
      rw [toOff_of_ge (by omega), hx]
      omega
    rw [if_neg hsmall, abs, if_pos (by omega)]
    by_cases hhalf : d = 2 ^ 19
    · subst hhalf
      have habs : toOff (0 - x) = -(2 ^ 31) := by
        rw [toOff_of_ge (by omega), hzero]
        rfl
      rw [if_pos rfl, habs]
      rfl
    · have habs : toOff (0 - x) = 2 ^ 32 - 4096 * d := by
        rw [toOff_of_lt (by omega), hzero, Nat.mod_eq_of_lt (by omega)]
        omega
      rw [if_neg hhalf, habs, Int.tdiv_eq_ediv_of_nonneg (by omega)]
      omega

end HwMemory
end CS162

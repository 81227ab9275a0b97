/-
# The two pools of pages

What `palloc_get_page` and `palloc_free_page` of `threads/palloc.c` do to the kernel's pool and to
the user pool, said of the addresses of pages.  `InUse` is the set of pages that are handed out: a
page that is got was not in it and is, one that is given back was in it and is not, and nothing
else changes but what this page holds.

**Modelled source.** `projects1-3/src/threads/vaddr.h`: `PHYS_BASE`, `is_user_vaddr`,
`is_kernel_vaddr`, `ptov`, `vtop`.
-/

import CS162.Threads.Palloc

namespace CS162
namespace Paging

open Basis Threads Filesys

/-! ### Addresses -/

/-- `PHYS_BASE`. -/
def physBase : ℕ := 0xc0000000

/-- `is_user_vaddr`. -/
def isUserVaddr (vaddr : ℕ) : Bool := decide (vaddr < physBase)

/-- `is_kernel_vaddr`. -/
def isKernelVaddr (vaddr : ℕ) : Bool := decide (physBase ≤ vaddr)

/-- `ASSERT`. -/
def assert {σ : Type} (b : Bool) : Prog σ Unit := if b then pure () else halt

/-- `ptov`. -/
def ptov {σ : Type} (paddr : ℕ) : Prog σ ℕ := do
  assert (decide (paddr < physBase))
  return (paddr + physBase) % 2 ^ 32

/-- `vtop`. -/
def vtop {σ : Type} (vaddr : ℕ) : Prog σ ℕ := do
  assert (isKernelVaddr vaddr)
  return vaddr - physBase

/-- Where the pools lie: behind one another in the `init_ram_pages` pages of memory, which is
mapped at `PHYS_BASE`. -/
structure Ram where
  layout : Layout
  userPages : ℕ
  ramPages : ℕ
  high : physBase ≤ layout.kernelBase
  apart : layout.kernelBase + pgsize * layout.kernelPages ≤ layout.userBase
  userAligned : pgOfs layout.userBase = 0
  userFits : layout.userBase + pgsize * userPages ≤ physBase + pgsize * ramPages
  ramFits : physBase + pgsize * ramPages ≤ 2 ^ 32

variable {σ α : Type} {R : Ram} {H H' : KernelHeap} {user user' : Bool} {k k' p q : ℕ}

@[simp] theorem returns_assert_bind {b : Bool} {s : σ} {f : Unit → Prog σ α} {Q : α → σ → Prop} :
    Returns (assert b >>= f) s Q ↔ b = true ∧ Returns (f ()) s Q := by
  unfold assert
  cases b with
  | true => simp
  | false => simp

theorem returns_assert {b : Bool} {s : σ} {f : Unit → Prog σ α} {Q : α → σ → Prop}
    (hb : b = true) (h : Returns (f ()) s Q) : Returns (assert b >>= f) s Q :=
  returns_assert_bind.2 ⟨hb, h⟩

theorem returns_ptov_bind {s : σ} {f : ℕ → Prog σ α} {Q : α → σ → Prop} (hp : p < 2 ^ 32 - physBase) :
    Returns (ptov p >>= f) s Q ↔ Returns (f (p + physBase)) s Q := by
  have hlt : p < physBase := Nat.lt_of_lt_of_le hp (by decide)
  have hmod : (p + physBase) % 2 ^ 32 = p + physBase := Nat.mod_eq_of_lt (by omega)
  unfold ptov
  rw [bind_assoc, returns_assert_bind, hmod]
  simp [hlt]

theorem returns_vtop_bind {s : σ} {f : ℕ → Prog σ α} {Q : α → σ → Prop} (hp : physBase ≤ p) :
    Returns (vtop p >>= f) s Q ↔ Returns (f (p - physBase)) s Q := by
  unfold vtop isKernelVaddr
  rw [bind_assoc, returns_assert_bind]
  simp [hp]

/-! ### The pages of the pools -/

namespace Ram

def base (R : Ram) (user : Bool) : ℕ := if user then R.layout.userBase else R.layout.kernelBase

def pages (R : Ram) (user : Bool) : ℕ := if user then R.userPages else R.layout.kernelPages

def page (R : Ram) (user : Bool) (k : ℕ) : ℕ := R.base user + pgsize * k

/-- The address of a page of a pool. -/
def IsPage (R : Ram) (p : ℕ) : Prop := ∃ user, ∃ k < R.pages user, p = R.page user k

theorem pgOfs_page (R : Ram) (user : Bool) (k : ℕ) : R.page user k % 4096 = 0 := by
  have hkernel := R.layout.aligned
  have huser := R.userAligned
  unfold pgOfs pgsize at hkernel huser
  unfold page base pgsize
  split_ifs <;> omega

/-- A page of a pool is above `PHYS_BASE` and in memory. -/
theorem page_bounds (hk : k < R.pages user) :
    physBase ≤ R.page user k ∧ R.page user k + 4096 ≤ physBase + 4096 * R.ramPages ∧
      R.page user k + 4096 ≤ 2 ^ 32 := by
  have hhigh := R.high
  have hapart := R.apart
  have huser := R.userFits
  have hram := R.ramFits
  unfold pages at hk
  unfold page base
  unfold pgsize at *
  split_ifs at hk ⊢ <;> omega

theorem page_inj (hk : k < R.pages user) (hk' : k' < R.pages user')
    (h : R.page user k = R.page user' k') : user = user' ∧ k = k' := by
  have hapart := R.apart
  unfold pages at hk hk'
  unfold page base at h
  unfold pgsize at *
  cases user <;> cases user' <;> simp at hk hk' h ⊢ <;> omega

end Ram

theorem Ram.IsPage.aligned (h : R.IsPage p) : p % 4096 = 0 := by
  obtain ⟨user, k, -, rfl⟩ := h
  exact R.pgOfs_page user k

theorem Ram.IsPage.bounds (h : R.IsPage p) :
    physBase ≤ p ∧ p + 4096 ≤ physBase + 4096 * R.ramPages ∧ p + 4096 ≤ 2 ^ 32 := by
  obtain ⟨user, k, hk, rfl⟩ := h
  exact R.page_bounds hk

theorem Ram.IsPage.ne_zero (h : R.IsPage p) : p ≠ 0 := by
  have hlow := h.bounds.1
  unfold physBase at hlow
  omega

/-- Two pages do not overlap. -/
theorem Ram.IsPage.apart (h : R.IsPage p) (h' : R.IsPage q) (hne : p ≠ q) :
    p + 4096 ≤ q ∨ q + 4096 ≤ p := by
  have hp := h.aligned
  have hq := h'.aligned
  omega

/-! ### What is in use -/

/-- The `used_map` of a pool. -/
def usedMap (H : KernelHeap) (user : Bool) : Bitmap := if user then H.userMap else H.kernelMap

/-- The bitmaps have a bit for each page. -/
def Ram.Sized (R : Ram) (H : KernelHeap) : Prop := ∀ user, (usedMap H user).bitCnt = R.pages user

/-- The page is handed out. -/
def Ram.InUse (R : Ram) (H : KernelHeap) (p : ℕ) : Prop :=
  ∃ user, ∃ k < R.pages user, p = R.page user k ∧ (usedMap H user).bits k = true

theorem Ram.InUse.isPage (h : R.InUse H p) : R.IsPage p := by
  obtain ⟨user, k, hk, rfl, -⟩ := h
  exact ⟨user, k, hk, rfl⟩

theorem inUse_page (hk : k < R.pages user) :
    R.InUse H (R.page user k) ↔ (usedMap H user).bits k = true := by
  constructor
  · rintro ⟨user', k', hk', heq, hbit⟩
    obtain ⟨rfl, rfl⟩ := R.page_inj hk hk' heq
    exact hbit
  · exact fun hbit => ⟨user, k, hk, rfl, hbit⟩

/-- The heap with the bit of one page set. -/
def setBit (H : KernelHeap) (user : Bool) (k : ℕ) (used : Bool) : KernelHeap :=
  if user then { H with userMap := H.userMap.setMultiple k 1 used }
  else { H with kernelMap := H.kernelMap.setMultiple k 1 used }

theorem usedMap_setBit (used : Bool) : usedMap (setBit H user k used) user' =
    if user' = user then (usedMap H user).setMultiple k 1 used else usedMap H user' := by
  cases user <;> cases user' <;> rfl

theorem Ram.Sized.set (h : R.Sized H) (used : Bool) : R.Sized (setBit H user k used) := by
  intro user'
  rw [usedMap_setBit]
  split_ifs with heq
  · rw [Bitmap.bitCnt_setMultiple, heq]
    exact h user
  · exact h user'

/-- Marking one page changes no other. -/
theorem inUse_setBit (hk : k < R.pages user) (used : Bool) :
    R.InUse (setBit H user k used) q ↔
      if q = R.page user k then used = true else R.InUse H q := by
  constructor
  · rintro ⟨user', k', hk', rfl, hbit⟩
    rw [usedMap_setBit] at hbit
    split_ifs with heq
    · obtain ⟨rfl, rfl⟩ := R.page_inj hk' hk heq
      rwa [if_pos rfl, Bitmap.bits_setMultiple_one, if_pos rfl] at hbit
    · rw [inUse_page hk']
      split_ifs at hbit with huser
      · subst huser
        rw [Bitmap.bits_setMultiple_one, if_neg fun hkk => heq (by rw [hkk])] at hbit
        exact hbit
      · exact hbit
  · intro h
    split_ifs at h with heq
    · rw [heq, inUse_page hk, usedMap_setBit, if_pos rfl, Bitmap.bits_setMultiple_one, if_pos rfl]
      exact h
    · obtain ⟨user', k', hk', rfl, hbit⟩ := h
      rw [inUse_page hk', usedMap_setBit]
      split_ifs with huser
      · subst huser
        rw [Bitmap.bits_setMultiple_one, if_neg fun hkk => heq (by rw [hkk])]
        exact hbit
      · exact hbit

/-! ### Getting and giving back -/

/-- The two memories agree outside one page. -/
def SameBut (p : ℕ) (m m' : Memory) : Prop := ∀ a, a < p ∨ p + 4096 ≤ a → m' a = m a

/-- `p` was handed out. -/
structure Ram.Got (R : Ram) (H H' : KernelHeap) (p : ℕ) : Prop where
  sized : R.Sized H'
  page : R.IsPage p
  fresh : ¬R.InUse H p
  used : ∀ q, R.InUse H' q ↔ R.InUse H q ∨ q = p
  mem : SameBut p H.mem H'.mem

/-- `p` was given back. -/
structure Ram.Gave (R : Ram) (H H' : KernelHeap) (p : ℕ) : Prop where
  sized : R.Sized H'
  used : ∀ q, R.InUse H' q ↔ R.InUse H q ∧ q ≠ p
  mem : SameBut p H.mem H'.mem

/-- No page of the pool is free. -/
def Ram.Full (R : Ram) (H : KernelHeap) (user : Bool) : Prop :=
  ∀ k < R.pages user, R.InUse H (R.page user k)

theorem store_sameBut {bs : List UInt8} {m : Memory} (hlen : bs.length ≤ 4096) :
    SameBut p m (store m p bs) := by
  intro a ha
  rcases ha with ha | ha
  · exact store_of_lt ha
  · exact store_of_ge (by omega)

theorem Ram.Sized.got (hsized : R.Sized H) (hk : k < R.pages user)
    (hbit : (usedMap H user).bits k = false) {m : Memory} (hm : SameBut (R.page user k) H.mem m) :
    R.Got H { setBit H user k true with mem := m } (R.page user k) where
  sized := hsized.set true
  page := ⟨user, k, hk, rfl⟩
  fresh := by
    rw [inUse_page hk, hbit]
    exact Bool.false_ne_true
  used q := by
    change R.InUse (setBit H user k true) q ↔ _
    rw [inUse_setBit hk]
    split_ifs with heq
    · simp [heq]
    · simp [heq]
  mem := hm

/-- `palloc_get_page` returns a free page of the pool, if there is one. -/
theorem pallocGetPage_run (hsized : R.Sized H) (flags : PallocFlags) :
    ((pallocGetPage R.layout flags).run H = (if flags.assert then none else some (0, H)) ∧
      R.Full H flags.user) ∨
    ∃ k < R.pages flags.user, (usedMap H flags.user).bits k = false ∧
      (pallocGetPage R.layout flags).run H = some (R.page flags.user k,
        { setBit H flags.user k true with
          mem := if flags.zero then store H.mem (R.page flags.user k) (List.replicate 4096 0)
            else H.mem }) := by
  have hscan : (if flags.user then H.userMap else H.kernelMap).scanAndFlip 0 1 false =
      ((usedMap H flags.user).scan 0 1 false).map fun i =>
        (i, (usedMap H flags.user).setMultiple i 1 true) := rfl
  have hsize := hsized flags.user
  have hget : ∀ f : KernelHeap → OnHeap ℕ, (get >>= f).run H = (f H).run H := fun _ => rfl
  unfold pallocGetPage pallocGetMultiple
  rw [if_neg Nat.one_ne_zero, hget, hscan]
  cases hfound : (usedMap H flags.user).scan 0 1 false with
  | none =>
    refine .inl ⟨?_, fun k hk => ?_⟩
    · cases flags.assert <;> rfl
    · rw [inUse_page hk]
      exact Bitmap.scan_one_none_iff.1 hfound k (by rwa [hsize])
  | some k =>
    obtain ⟨hk, hbit, -⟩ := Bitmap.scan_one_some hfound
    refine .inr ⟨k, by rwa [← hsize], hbit, ?_⟩
    rcases flags with ⟨flagAssert, flagZero, flagUser⟩
    cases flagZero <;> cases flagUser <;> rfl

/-- **A page is got**, with zeros if that is asked for; none where the pool is full. -/
theorem pallocGetPage_got (hsized : R.Sized H) (zero user : Bool) :
    Returns (pallocGetPage R.layout { zero := zero, user := user }) H fun a H' =>
      (a = 0 ∧ H' = H ∧ R.Full H user) ∨
        R.Got H H' a ∧ (zero = true → ∀ i < 4096, H'.mem (a + i) = 0) ∧
          ∃ k < R.pages user, a = R.page user k := by
  rcases pallocGetPage_run hsized { zero := zero, user := user } with
    ⟨hrun, hfull⟩ | ⟨k, hk, hbit, hrun⟩
  · exact ⟨0, H, hrun, .inl ⟨rfl, rfl, hfull⟩⟩
  · refine ⟨_, _, hrun, .inr ⟨hsized.got hk hbit ?_, ?_, k, hk, rfl⟩⟩
    · cases zero with
      | true => exact store_sameBut (by rw [List.length_replicate])
      | false => exact fun a _ => rfl
    · rintro rfl i hi
      change store H.mem (R.page user k) (List.replicate 4096 0) (R.page user k + i) = 0
      rw [store, if_pos (Nat.le_add_right _ i), Nat.add_sub_cancel_left, List.getElem?_replicate,
        if_pos hi]
      rfl

/-- Which pool a page is from. -/
theorem pageFromPool_page (hsized : R.Sized H) (hk : k < R.pages user) :
    pageFromPool R.layout.kernelBase H.kernelMap (R.page user k) = !user ∧
      (user = true → pageFromPool R.layout.userBase H.userMap (R.page user k) = true) := by
  have hkernel := R.layout.aligned
  have huser := R.userAligned
  have hapart := R.apart
  have hsizek : H.kernelMap.bitCnt = R.layout.kernelPages := hsized false
  have hsizeu : H.userMap.bitCnt = R.userPages := hsized true
  unfold pgOfs pgsize at *
  unfold pageFromPool pgNo Ram.page Ram.base pgsize
  rw [hsizek, hsizeu]
  cases user with
  | false =>
    have hlt : k < R.layout.kernelPages := hk
    refine ⟨?_, fun hfalse => absurd hfalse Bool.false_ne_true⟩
    simp only [Bool.false_eq_true, if_false, Bool.not_false, Bool.and_eq_true, decide_eq_true_eq]
    omega
  | true =>
    have hlt : k < R.userPages := hk
    simp only [if_true, Bool.not_true, Bool.and_eq_false_iff, decide_eq_false_iff_not,
      Bool.and_eq_true, decide_eq_true_eq]
    omega

/-- The page's number in its pool. -/
theorem pgNo_page_sub (R : Ram) (user : Bool) (k : ℕ) :
    pgNo (R.page user k) - pgNo (R.base user) = k := by
  have hkernel := R.layout.aligned
  have huser := R.userAligned
  unfold pgOfs pgsize at hkernel huser
  unfold pgNo Ram.page Ram.base pgsize
  split_ifs <;> omega

/-- The assertion of `palloc_free_multiple` holds of a page that is handed out. -/
theorem release_page (hsized : R.Sized H) (hk : k < R.pages user)
    (hbit : (usedMap H user).bits k = true) :
    release (usedMap H user) (pgNo (R.page user k) - pgNo (R.base user)) 1 =
      some ((usedMap H user).setMultiple k 1 false) := by
  have hrange : (usedMap H user).InRange k 1 := by
    unfold Bitmap.InRange
    rw [hsized user]
    exact hk
  rw [pgNo_page_sub, release, if_pos ⟨hrange, by rw [Bitmap.all_one, hbit]⟩]

theorem Ram.Sized.gave (hsized : R.Sized H) (hk : k < R.pages user) {m : Memory}
    (hm : SameBut (R.page user k) H.mem m) :
    R.Gave H { setBit H user k false with mem := m } (R.page user k) where
  sized := hsized.set false
  used q := by
    change R.InUse (Paging.setBit H user k false) q ↔ _
    rw [inUse_setBit hk]
    split_ifs with heq
    · simp [heq]
    · simp [heq]
  mem := hm

/-- **A page is given back.** -/
theorem pallocFreePage_gave (hsized : R.Sized H) (hp : R.InUse H p) :
    Returns (pallocFreePage R.layout p) H fun _ H' => R.Gave H H' p := by
  obtain ⟨user, k, hk, rfl, hbit⟩ := hp
  have hofs : ¬pgOfs (R.page user k) ≠ 0 := not_not_intro (R.pgOfs_page user k)
  have hnull : ¬(R.page user k = 0 ∨ (1 : ℕ) = 0) := by
    have hne : R.page user k ≠ 0 := Ram.IsPage.ne_zero ⟨user, k, hk, rfl⟩
    omega
  have hm : SameBut (R.page user k) H.mem
      (store H.mem (R.page user k) (List.replicate (pgsize * 1) 0xcc)) :=
    store_sameBut (by rw [List.length_replicate]; exact Nat.le_refl _)
  have hgave := hsized.gave hk hm
  obtain ⟨hkernel, huser⟩ := pageFromPool_page hsized hk
  have hrelease := release_page hsized hk hbit
  unfold pallocFreePage pallocFreeMultiple
  rw [if_neg hofs, if_neg hnull, returns_get_bind]
  unfold memset
  cases user with
  | false =>
    change pageFromPool R.layout.kernelBase H.kernelMap (R.page false k) = true at hkernel
    change release H.kernelMap (pgNo (R.page false k) - pgNo R.layout.kernelBase) 1 = _
      at hrelease
    rw [if_pos hkernel, returns_modify_bind, hrelease]
    exact returns_modify.2 hgave
  | true =>
    change release H.userMap (pgNo (R.page true k) - pgNo R.layout.userBase) 1 = _ at hrelease
    rw [if_neg (by rw [hkernel]; exact Bool.false_ne_true), if_pos (huser rfl),
      returns_modify_bind, hrelease]
    exact returns_modify.2 hgave

end Paging
end CS162

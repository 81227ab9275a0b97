/-
# The first directory

`paging_init` takes a page for `init_page_dir` and one for each 4 MB of memory, and maps every page
of memory at its address above `PHYS_BASE`.  With so many pages in the kernel's pool it returns,
and the heap represents these maps.
-/

import CS162.Paging.Directories

namespace CS162
namespace Paging

open Basis Threads Filesys

variable {R : Ram} {boot : Set ℕ} {F : Spaces} {H H' : KernelHeap} {use : ℕ → PageUse}
  {m : Memory} {text : ℕ × ℕ} {pd pt d n p q v : ℕ}

/-- The free pages of the kernel's pool. -/
def freeCnt (H : KernelHeap) : ℕ := (usedMap H false).free.card

/-- **A page that must be there.** -/
theorem pallocGetPage_assert (hsized : R.Sized H) (hfree : 0 < freeCnt H) :
    Returns (pallocGetPage R.layout { assert := true, zero := true }) H fun a H' =>
      R.Got H H' a ∧ (∀ i < 4096, H'.mem (a + i) = 0) ∧ freeCnt H' + 1 = freeCnt H := by
  rcases pallocGetPage_run hsized { assert := true, zero := true } with
    ⟨-, hfull⟩ | ⟨k, hk, hbit, hrun⟩
  · obtain ⟨k, hk⟩ := Finset.card_pos.1 hfree
    obtain ⟨hlt, hbit⟩ := Bitmap.mem_free.1 hk
    rw [hsized false] at hlt
    have hset := (inUse_page hlt).1 (hfull k hlt)
    rw [hset] at hbit
    exact absurd hbit.symm Bool.false_ne_true
  · refine ⟨_, _, hrun, hsized.got hk hbit (store_sameBut (by rw [List.length_replicate])), ?_, ?_⟩
    · intro i hi
      change store H.mem (R.page false k) (List.replicate 4096 0) (R.page false k + i) = 0
      rw [store, if_pos (Nat.le_add_right _ i), Nat.add_sub_cancel_left, List.getElem?_replicate,
        if_pos hi]
      rfl
    · have hmem : k ∈ (usedMap H false).free :=
        Bitmap.mem_free.2 ⟨by rw [hsized false]; exact hk, hbit⟩
      change ((usedMap H false).setMultiple k 1 true).free.card + 1 = _
      rw [Bitmap.free_setMultiple_one, Finset.card_erase_add_one hmem]
      rfl

/-! ### What is mapped -/

/-- The entry of page `v` when the first `n` pages of memory are mapped. -/
def bootEntry (text : ℕ × ℕ) (pd n d v : ℕ) : Option Pte :=
  if d = pd ∧ 786432 ≤ v ∧ (v - 786432) / 1024 * 1024 < n then
    some (if v - 786432 < n then
      kernelPte (4096 * v) !(decide (text.1 ≤ 4096 * v) && decide (4096 * v < text.2))
    else { frame := 0 })
  else none

/-- The maps of `paging_init` when the first `n` pages of memory are mapped. -/
def bootSpaces (text : ℕ × ℕ) (pd n : ℕ) : Spaces where
  dirs := {pd}
  entry := bootEntry text pd n
  held := ∅

theorem bootEntry_of_lt (text : ℕ × ℕ) (pd : ℕ) (hlow : 786432 ≤ v)
    (hn : (v - 786432) / 1024 * 1024 < n) : bootEntry text pd n pd v =
      some (if v - 786432 < n then
        kernelPte (4096 * v) !(decide (text.1 ≤ 4096 * v) && decide (4096 * v < text.2))
      else { frame := 0 }) := if_pos ⟨rfl, hlow, hn⟩

theorem bootEntry_of_not (text : ℕ × ℕ)
    (h : ¬(d = pd ∧ 786432 ≤ v ∧ (v - 786432) / 1024 * 1024 < n)) :
    bootEntry text pd n d v = none := if_neg h

/-- **One page of memory more.** -/
theorem bootSpaces_succ (text : ℕ × ℕ) (pd n : ℕ) :
    bootSpaces text pd (n + 1) = ((bootSpaces text pd n).grow pd (786432 + n)).set pd (786432 + n)
      (kernelPte (4096 * (786432 + n))
        !(decide (text.1 ≤ 4096 * (786432 + n)) && decide (4096 * (786432 + n) < text.2))) := by
  unfold Spaces.set Spaces.grow bootSpaces
  congr 1
  funext d v
  dsimp only
  by_cases hd : d = pd
  · rw [hd]
    by_cases hv : v = 786432 + n
    · rw [if_pos ⟨hv, rfl, .inl rfl⟩, bootEntry_of_lt text pd (by omega) (by omega),
        if_pos (by omega), hv]
    · rw [if_neg fun h => hv h.1]
      by_cases hold : 786432 ≤ v ∧ (v - 786432) / 1024 * 1024 < n
      · have hiff : v - 786432 < n + 1 ↔ v - 786432 < n := by omega
        have hentry := bootEntry_of_lt text pd hold.1 hold.2
        rw [if_neg (fun h => by rw [hentry] at h; cases h.1), hentry,
          bootEntry_of_lt text pd hold.1 (by omega)]
        simp only [hiff]
      · have hnone : bootEntry text pd n pd v = none := bootEntry_of_not text fun h => hold h.2
        by_cases hnew : 786432 ≤ v ∧ (v - 786432) / 1024 * 1024 < n + 1
        · rw [if_pos ⟨hnone, rfl, by omega⟩, bootEntry_of_lt text pd hnew.1 hnew.2,
            if_neg (by omega)]
        · rw [if_neg (fun h => hnew (by omega)), hnone]
          exact bootEntry_of_not text fun h => hnew h.2
  · rw [if_neg fun h => hd h.2.1, if_neg fun h => hd h.2.1, bootEntry_of_not text fun h => hd h.1,
      bootEntry_of_not text fun h => hd h.1]

/-- Only the kernel's pages are mapped. -/
theorem maps_kernel {e : Pte} (hd : d ∈ F.dirs) (hv : 768 ≤ v / 1024) {d' v' : ℕ} :
    (F.set d v e).Maps d' v' q ↔ F.Maps d' v' q := by
  rw [maps_set hd]
  split_ifs with hsame
  · refine iff_of_false (fun h => ?_) fun h => ?_
    · exact absurd h.1 (Nat.not_lt.2 hv)
    · rw [hsame.2] at h
      exact absurd h.2.1 (Nat.not_lt.2 hv)
  · exact Iff.rfl

/-! ### The loop -/

/-- What holds after `n` rounds: the heap represents the maps, and `pt` is the last page table. -/
structure Booted (R : Ram) (text : ℕ × ℕ) (boot : Set ℕ) (pd n cnt : ℕ) (pt : ℕ) (H : KernelHeap) :
    Prop where
  represents : ∃ use, Accounted R pd boot (bootSpaces text pd n) H use ∧
    InMemory pd (bootSpaces text pd n) H.mem use ∧
    (0 < n → TableAt pd use pd (768 + (n - 1) / 1024) pt)
  free : freeCnt H + (n + 1023) / 1024 = cnt

/-- The word of page `786432 + n` is written. -/
theorem write_kernel (h : Accounted R pd boot (F.grow pd v) H use)
    (hm : InMemory pd (F.grow pd v) H.mem use) (hd : pd ∈ F.dirs) (hv : 768 ≤ v / 1024)
    (hp : TableAt pd use pd (v / 1024) pt) {e : Pte} (he : e.Fits) :
    Accounted R pd boot ((F.grow pd v).set pd v e)
      { H with mem := setFieldAt H.mem (pt + 4 * (v % 1024)) 0 e.encode } use ∧
    InMemory pd ((F.grow pd v).set pd v e)
      (setFieldAt H.mem (pt + 4 * (v % 1024)) 0 e.encode) use :=
  ⟨h.congr h.sized (fun _ => Iff.rfl) rfl rfl fun _ _ _ =>
      maps_kernel (F := F.grow pd v) hd hv, hm.set h hp he⟩

/-- **One round of the loop of `paging_init`.** -/
theorem mapPage_returns {cnt : ℕ} (hb : Booted R text boot pd n cnt pt H) (hn : n < R.ramPages)
    (hcnt : (R.ramPages + 1023) / 1024 ≤ cnt) : Returns (mapPage R text pd n pt) H fun pt' H' =>
      Booted R text boot pd (n + 1) cnt pt' H' := by
  obtain ⟨⟨use, h, hm, hlast⟩, hfree⟩ := hb
  have hram := R.ramFits
  have hd : pd ∈ (bootSpaces text pd n).dirs := rfl
  have hpd := (h.dir_isPage hd).ne_zero
  have hn18 : n < 2 ^ 18 := by
    unfold physBase pgsize at hram
    omega
  have hpaddr : n * pgsize % 2 ^ 32 = 4096 * n := by
    unfold pgsize
    omega
  have hvaddr : 4096 * n + physBase = 4096 * (786432 + n) := by
    unfold physBase
    omega
  have hregion : (786432 + n) / 1024 = 768 + n / 1024 := by omega
  have hpdNo : pdNo (4096 * (786432 + n)) = (786432 + n) / 1024 := by
    rw [pdNo_eq, Nat.mul_div_cancel_left _ (by omega)]
  have hptNo : ptNo (4096 * (786432 + n)) = (786432 + n) % 1024 := by
    rw [ptNo_eq, Nat.mul_div_cancel_left _ (by omega)]
  have haligned : 4096 * (786432 + n) % 4096 = 0 := Nat.mul_mod_right _ _
  have hbase : physBase ≤ 4096 * (786432 + n) := by
    rw [← hvaddr]
    exact Nat.le_add_left _ _
  have hfits : ∀ w, (kernelPte (4096 * (786432 + n)) w).Fits := by
    intro w
    change (4096 * (786432 + n) - physBase) / 4096 < 2 ^ 18
    rw [← hvaddr]
    omega
  unfold mapPage
  rw [hpaddr, returns_ptov_bind (by unfold physBase; omega), hvaddr, hpdNo, hptNo,
    returns_readWord_bind (by omega)]
  by_cases hnew : n % 1024 = 0
  · -- the first page of a region
    have hnone : ∀ q, ¬TableAt pd use pd ((786432 + n) / 1024) q := by
      intro q hq
      obtain ⟨e, he, -⟩ := hm.pte pd hd _ q hq 0 (by omega)
      refine absurd he ?_
      change ¬bootEntry text pd n pd _ = some e
      rw [bootEntry_of_not text (by omega)]
      exact Option.some_ne_none e |>.symm
    rw [hm.noPde pd hd _ (by omega) hnone, if_pos rfl]
    refine (pallocGetPage_assert h.sized (by omega)).seq ?_
    rintro a H₁ ⟨hgot, hzero, hcard⟩
    have hpage := hgot.page
    have hnotab : ∀ q, use q ≠ .table pd ((786432 + n) / 1024) := fun q hq =>
      hnone q (tableAt_init.2 hq)
    have h' := h.addTable hgot hd (by omega) (iff_of_false (by omega) fun hne => hne rfl) hnotab
      (tablePde a).encode
    have hm' := hm.addTable h hgot hzero hd (by omega) (owner_init _ _) (fun d' hd' _ => hd') hnone
    have hp' : TableAt pd (Function.update use a (.table pd ((786432 + n) / 1024))) pd
        ((786432 + n) / 1024) a := tableAt_update.2 (by rw [if_pos rfl]; exact ⟨rfl, owner_init _ _⟩)
    have ha := hpage.ne_zero
    rw [returns_pdeCreate_bind hpage.aligned hpage.bounds.1, returns_writeWord_bind (by omega),
      returns_pure_bind, returns_pteCreateKernel_bind haligned hbase,
      returns_writeWord_bind (by omega)]
    obtain ⟨hacc, hmem⟩ := write_kernel h' hm' hd (by omega) hp' (hfits _)
    rw [← bootSpaces_succ] at hacc hmem
    refine returns_pure.2 ⟨⟨_, hacc, hmem, fun _ => ?_⟩, ?_⟩
    · rw [Nat.add_sub_cancel, ← hregion]
      exact hp'
    · change freeCnt H₁ + _ = cnt
      omega
  · -- another page of the region that the loop is at
    have hp : TableAt pd use pd ((786432 + n) / 1024) pt := by
      have hprev := hlast (by omega)
      rwa [show 768 + (n - 1) / 1024 = (786432 + n) / 1024 by omega] at hprev
    have hsome : (bootSpaces text pd n).entry pd (786432 + n) ≠ none := by
      change bootEntry text pd n pd (786432 + n) ≠ none
      rw [bootEntry_of_lt text pd (by omega) (by omega)]
      exact Option.some_ne_none _
    obtain ⟨e, he⟩ := Option.ne_none_iff_exists'.1 hsome
    have hgrow := grow_of_some hm hd (by omega) he
    have hpt := (h.table_isPage hp).ne_zero
    rw [hm.pde pd hd _ (by omega) pt hp, if_neg (tablePde_ne_zero pt), returns_pure_bind,
      returns_pteCreateKernel_bind haligned hbase, returns_writeWord_bind (by omega)]
    rw [← hgrow] at h hm
    obtain ⟨hacc, hmem⟩ := write_kernel h hm hd (by omega) hp (hfits _)
    rw [← bootSpaces_succ] at hacc hmem
    refine returns_pure.2 ⟨⟨_, hacc, hmem, fun _ => ?_⟩, ?_⟩
    · rw [Nat.add_sub_cancel, ← hregion]
      exact hp
    · change freeCnt H + _ = cnt
      omega

/-- The whole loop. -/
theorem mapPages_returns {cnt : ℕ} (hb : Booted R text boot pd 0 cnt 0 H)
    (hcnt : (R.ramPages + 1023) / 1024 ≤ cnt) (hn : n ≤ R.ramPages) :
    Returns (mapPages R text pd n) H fun pt H' => Booted R text boot pd n cnt pt H' := by
  induction n with
  | zero => exact returns_pure.2 hb
  | succ n ih => exact (ih (by omega)).seq fun pt H' hb' => mapPage_returns hb' (by omega) hcnt

/-- Before the first round there is a directory, and nothing is mapped. -/
theorem booted_zero (text : ℕ × ℕ) (hgot : R.Got H H' pd)
    (hzero : ∀ i < 4096, H'.mem (pd + i) = 0) :
    Booted R text {p | R.InUse H p} pd 0 (freeCnt H') 0 H' := by
  classical
  obtain ⟨use, huse⟩ : ∃ use : ℕ → PageUse, ∀ q, use q =
      if q = pd then .dir else if R.InUse H q then .boot else .free := ⟨_, fun _ => rfl⟩
  have hentry : ∀ d v, (bootSpaces text pd 0).entry d v = none := fun d v =>
    bootEntry_of_not text fun h => Nat.not_lt_zero _ h.2.2
  have hmaps : ∀ d v q, ¬(bootSpaces text pd 0).Maps d v q := by
    rintro d v q ⟨-, -, e, he, -⟩
    rw [hentry] at he
    cases he
  have hnotable : ∀ q d i, use q ≠ .table d i := by
    intro q d i
    rw [huse]
    split_ifs <;> exact PageUse.noConfusion
  refine ⟨⟨use, ⟨hgot.sized, fun q => ?_, fun q => ?_, fun q => ?_, fun q => ?_, fun q d v => ?_,
    fun q d i heq => absurd heq (hnotable q d i), fun q _ d i heq => absurd heq (hnotable q d i),
    rfl⟩, ⟨fun d _ i _ q hq => absurd hq (hnotable q _ i), fun d hd i hi _ => ?_,
    fun d _ i q hq => absurd hq (hnotable q _ i), fun d _ i _ _ j _ => hentry d _⟩,
    fun h => absurd h (Nat.lt_irrefl 0)⟩, rfl⟩
  · rw [hgot.used, huse]
    by_cases hq : q = pd
    · simp [hq]
    · by_cases hin : R.InUse H q <;> simp [hq, hin]
  · rw [huse]
    by_cases hq : q = pd
    · rw [if_pos hq, hq]
      exact iff_of_false PageUse.noConfusion hgot.fresh
    · by_cases hin : R.InUse H q <;> simp [hq, hin]
  · rw [huse]
    refine iff_of_false ?_ (Set.notMem_empty q)
    split_ifs <;> exact id
  · rw [huse]
    change _ ↔ q = pd
    by_cases hq : q = pd
    · simp [hq]
    · by_cases hin : R.InUse H q <;> simp [hq, hin]
  · rw [huse]
    refine iff_of_false ?_ (hmaps d v q)
    split_ifs <;> exact id
  · have hdpd : d = pd := hd
    rw [hdpd]
    exact word_zero hzero hi

/-- **`paging_init`** maps all of memory for the kernel, with enough pages in its pool. -/
theorem pagingInit_returns (text : ℕ × ℕ) (hsized : R.Sized H)
    (hfree : 1 + (R.ramPages + 1023) / 1024 ≤ freeCnt H) :
    Returns (pagingInit R text) H fun pd H' =>
      Represents R pd {p | R.InUse H p} (bootSpaces text pd R.ramPages) H' := by
  unfold pagingInit
  refine (pallocGetPage_assert hsized (by omega)).seq ?_
  rintro pd H₁ ⟨hgot, hzero, hcard⟩
  refine (mapPages_returns (booted_zero text hgot hzero) (by omega) (Nat.le_refl _)).seq ?_
  rintro pt H₂ ⟨⟨use, h, hm, -⟩, -⟩
  exact returns_pure.2 ⟨use, h, hm⟩

end Paging
end CS162

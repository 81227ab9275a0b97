/-
# Sorting and searching an array

`sort` of `lib/stdlib.c` sorts an array of bytes in place by a heap, `binary_search` looks for a
key in the result.  Both see an element only through `compare`.  A loop takes the number of rounds
it may make; `none` is a loop that needs more, or an assertion that fails.

**Modelled source.** `projects1-3/src/lib/stdlib.c`: `compare_thunk`, `qsort`, `do_swap`,
`do_compare`, `heapify`, `sort`, `bsearch`, `binary_search`.
-/

import CS162.Basis.ByteMemory
import CS162.Basis.HeapOrder
import Mathlib.Data.Nat.Log
import Mathlib.Data.Fin.VecNotation

namespace CS162
namespace Lib

open Basis

/-! ### The code -/

/-- The `size` bytes at an address. -/
def bytesAt (m : Memory) (a size : ℕ) : Fin size → UInt8 := fun k => m (a + k)

/-- The first `n` rounds of the loop of `do_swap`. -/
def swapBytes (a b : ℕ) : ℕ → Memory → Memory
  | 0, m => m
  | i + 1, m =>
    let m := swapBytes a b i m
    let t := m (a + i)
    let m := Function.update m (a + i) (m (b + i))
    Function.update m (b + i) t

def doSwap (m : Memory) (array a_idx b_idx size : ℕ) : Memory :=
  let a := array + (a_idx - 1) * size
  let b := array + (b_idx - 1) * size
  swapBytes a b size m

section
variable {Aux : Type} {size : ℕ} (compare : (Fin size → UInt8) → (Fin size → UInt8) → Aux → ℤ)
  (aux : Aux)

def doCompare (m : Memory) (array a_idx b_idx : ℕ) : ℤ :=
  compare (bytesAt m (array + (a_idx - 1) * size) size)
    (bytesAt m (array + (b_idx - 1) * size) size) aux

/-- The loop of `heapify`.  `left` and `right` are of 32 bits. -/
def heapify : ℕ → Memory → (array i cnt : ℕ) → Option Memory
  | 0, _, _, _, _ => none
  | rounds + 1, m, array, i, cnt =>
    let left := 2 * i % 2 ^ 32
    let right := (2 * i + 1) % 2 ^ 32
    let max := i
    let max := if left ≤ cnt ∧ doCompare compare aux m array left max > 0 then left else max
    let max := if right ≤ cnt ∧ doCompare compare aux m array right max > 0 then right else max
    if max = i then some m
    else heapify rounds (doSwap m array i max size) array max cnt

/-- The first loop of `sort`, from `i` on. -/
def buildHeap (rounds : ℕ) (array cnt : ℕ) : ℕ → Memory → Option Memory
  | 0, m => some m
  | i + 1, m =>
    (heapify compare aux rounds m array (i + 1) cnt).bind (buildHeap rounds array cnt i)

/-- The second loop of `sort`, from `i` on. -/
def sortHeap (rounds : ℕ) (array : ℕ) : ℕ → Memory → Option Memory
  | 0, m => some m
  | 1, m => some m
  | i + 2, m =>
    (heapify compare aux rounds (doSwap m array 1 (i + 2) size) array 1 (i + 1)).bind
      (sortHeap rounds array (i + 1))

/-- Every `heapify` may make `rounds` rounds. -/
def sort (rounds : ℕ) (m : Memory) (array cnt : ℕ) : Option Memory :=
  if (array ≠ 0 ∨ cnt = 0) ∧ size > 0 then
    (buildHeap compare aux rounds array cnt (cnt / 2) m).bind
      (sortHeap compare aux rounds array cnt)
  else none

/-- The loop of `binary_search`. -/
def searchLoop (m : Memory) (key : Fin size → UInt8) : ℕ → (first last : ℕ) → Option (Option ℕ)
  | 0, first, last => if first < last then none else some none
  | rounds + 1, first, last =>
    if first < last then
      let range := (last - first) / size
      let middle := first + range / 2 * size
      let cmp := compare key (bytesAt m middle size) aux
      if cmp < 0 then searchLoop m key rounds first middle
      else if cmp > 0 then searchLoop m key rounds (middle + size) last
      else some (some middle)
    else some none

def binarySearch (rounds : ℕ) (m : Memory) (key : Fin size → UInt8) (array cnt : ℕ) :
    Option (Option ℕ) :=
  searchLoop compare aux m key rounds array (array + size * cnt)

end

/-- `compare_thunk` gets the function it calls as `aux`. -/
def compareThunk {size : ℕ} (a b : Fin size → UInt8)
    (aux : (Fin size → UInt8) → (Fin size → UInt8) → ℤ) : ℤ := aux a b

def qsort {size : ℕ} (compare : (Fin size → UInt8) → (Fin size → UInt8) → ℤ) (rounds : ℕ)
    (m : Memory) (array cnt : ℕ) : Option Memory := sort compareThunk compare rounds m array cnt

def bsearch {size : ℕ} (compare : (Fin size → UInt8) → (Fin size → UInt8) → ℤ) (rounds : ℕ)
    (m : Memory) (key : Fin size → UInt8) (array cnt : ℕ) : Option (Option ℕ) :=
  binarySearch compareThunk compare rounds m key array cnt

/-- What `sort` and `binary_search` ask of `compare`: less than zero, zero or greater than zero as
the first is below, level with or above the second. -/
structure StrcmpType {Aux : Type} {size : ℕ}
    (compare : (Fin size → UInt8) → (Fin size → UInt8) → Aux → ℤ) (aux : Aux) : Prop where
  swap : ∀ a b, compare a b aux < 0 ↔ compare b a aux > 0
  trans : ∀ a b c, compare a b aux ≤ 0 → compare b c aux ≤ 0 → compare a c aux ≤ 0

/-! ### The elements of the array -/

variable {Aux : Type} {size : ℕ} {compare : (Fin size → UInt8) → (Fin size → UInt8) → Aux → ℤ}
  {aux : Aux} {m : Memory} {array cnt i rounds : ℕ}

/-- `a` may come before `b`. -/
def NotAbove (compare : (Fin size → UInt8) → (Fin size → UInt8) → Aux → ℤ) (aux : Aux)
    (a b : Fin size → UInt8) : Prop := compare a b aux ≤ 0

instance : DecidableRel (NotAbove compare aux) := fun a b =>
  inferInstanceAs (Decidable (compare a b aux ≤ 0))

theorem StrcmpType.ranking (h : StrcmpType compare aux) : Ranking (NotAbove compare aux) where
  total := fun a b => by
    rcases le_or_gt (compare a b aux) 0 with hle | hgt
    · exact .inl hle
    · exact .inr ((h.swap b a).2 hgt).le
  trans := h.trans

/-- The elements with the numbers from `1` on. -/
def entry (m : Memory) (array size : ℕ) : ℕ → Fin size → UInt8
  | 0 => fun _ => 0
  | i + 1 => bytesAt m (array + i * size) size

/-- The elements of an array. -/
def elements (m : Memory) (array cnt size : ℕ) : List (Fin size → UInt8) :=
  places (entry m array size) cnt

theorem entry_of_pos (hi : 1 ≤ i) :
    entry m array size i = bytesAt m (array + (i - 1) * size) size := by
  obtain ⟨i, rfl⟩ := Nat.exists_eq_add_of_le' hi
  rfl

/-- What two runs of bytes that do not overlap hold after `n` rounds. -/
theorem swapBytes_apply {a b n : ℕ} (h : a + n ≤ b ∨ b + n ≤ a ∨ a = b) (p : ℕ) :
    swapBytes a b n m p = if a ≤ p ∧ p < a + n then m (b + (p - a))
      else if b ≤ p ∧ p < b + n then m (a + (p - b)) else m p := by
  induction n generalizing p with
  | zero => rw [swapBytes, if_neg (by omega), if_neg (by omega)]
  | succ n ih =>
    have hprev := ih (by omega)
    have ha : swapBytes a b n m (a + n) = m (a + n) := by
      rw [hprev, if_neg (by omega), if_neg (by omega)]
    have hb : swapBytes a b n m (b + n) = m (b + n) := by
      rw [hprev, if_neg (by omega), if_neg (by omega)]
    simp only [swapBytes, Function.update_apply, ha, hb, hprev]
    by_cases hpb : p = b + n
    · rw [if_pos hpb]
      by_cases hab : a = b
      · rw [if_pos (by omega), hpb, hab, Nat.add_sub_cancel_left]
      · rw [if_neg (by omega), if_pos (by omega), hpb, Nat.add_sub_cancel_left]
    · rw [if_neg hpb]
      by_cases hpa : p = a + n
      · rw [if_pos hpa, if_pos (by omega), hpa, Nat.add_sub_cancel_left]
      · have hpa' : a ≤ p ∧ p < a + (n + 1) ↔ a ≤ p ∧ p < a + n := by omega
        have hpb' : b ≤ p ∧ p < b + (n + 1) ↔ b ≤ p ∧ p < b + n := by omega
        simp only [if_neg hpa, hpa', hpb']

/-- Elements do not overlap. -/
theorem element_le {k l : ℕ} (h : k < l) (size : ℕ) : k * size + size ≤ l * size := by
  rw [← Nat.succ_mul]
  exact Nat.mul_le_mul_right size h

theorem element_apart {k l : ℕ} (array size : ℕ) :
    array + k * size + size ≤ array + l * size ∨ array + l * size + size ≤ array + k * size ∨
      array + k * size = array + l * size := by
  rcases Nat.lt_trichotomy k l with hlt | rfl | hlt
  · exact .inl (by have := element_le hlt size; omega)
  · exact .inr (.inr rfl)
  · exact .inr (.inl (by have := element_le hlt size; omega))

/-- **`do_swap` swaps two elements.** -/
theorem entry_doSwap {a b : ℕ} (ha : 1 ≤ a) (hb : 1 ≤ b) :
    entry (doSwap m array a b size) array size = entry m array size ∘ Equiv.swap a b := by
  obtain ⟨a, rfl⟩ := Nat.exists_eq_add_of_le' ha
  obtain ⟨b, rfl⟩ := Nat.exists_eq_add_of_le' hb
  have hswap : ∀ p, doSwap m array (a + 1) (b + 1) size p = _ := fun p =>
    swapBytes_apply (element_apart (k := a) (l := b) array size) p
  funext j
  rcases j with _ | j
  · rw [Function.comp_apply, Equiv.swap_apply_of_ne_of_ne (by omega) (by omega)]
    rfl
  funext t
  have ht : t.val < size := t.isLt
  change doSwap m array (a + 1) (b + 1) size (array + j * size + t) =
    entry m array size (Equiv.swap (a + 1) (b + 1) (j + 1)) t
  rw [hswap]
  by_cases hja : j = a
  · rw [hja, Equiv.swap_apply_left, if_pos (by omega), Nat.add_sub_cancel_left]
    rfl
  have hout : ∀ k, j ≠ k → ¬ (array + k * size ≤ array + j * size + t ∧
      array + j * size + t < array + k * size + size) := by
    intro k hk hin
    rcases Nat.lt_or_gt_of_ne hk with hlt | hlt
    · have := element_le hlt size
      omega
    · have := element_le hlt size
      omega
  rw [if_neg (hout a hja)]
  by_cases hjb : j = b
  · rw [hjb, Equiv.swap_apply_right, if_pos (by omega), Nat.add_sub_cancel_left]
    rfl
  · rw [if_neg (hout b hjb), Equiv.swap_apply_of_ne_of_ne (by omega) (by omega)]
    rfl

/-- The array ends where its last element does. -/
theorem element_end {k : ℕ} (hk : 1 ≤ k) (hcnt : k ≤ cnt) (size : ℕ) :
    (k - 1) * size + size ≤ cnt * size := by
  rw [← Nat.succ_mul, Nat.succ_eq_add_one, Nat.sub_add_cancel hk]
  exact Nat.mul_le_mul_right size hcnt

/-- The bytes outside the array. -/
def SameOutside (array cnt size : ℕ) (m m' : Memory) : Prop :=
  ∀ p, p < array ∨ array + cnt * size ≤ p → m' p = m p

theorem doSwap_outside {a b : ℕ} (ha : 1 ≤ a ∧ a ≤ cnt) (hb : 1 ≤ b ∧ b ≤ cnt) :
    SameOutside array cnt size m (doSwap m array a b size) := by
  intro p hp
  have hlasta := element_end ha.1 ha.2 size
  have hlastb := element_end hb.1 hb.2 size
  rw [doSwap, swapBytes_apply (element_apart array size), if_neg (by omega), if_neg (by omega)]

/-- `R` is what a step on the elements gives: the memory holds these, and elsewhere what it held. -/
def Gives (array cnt size : ℕ) (m : Memory) (f : Option (ℕ → Fin size → UInt8))
    (r : Option Memory) : Prop :=
  r.map (entry · array size) = f ∧ ∀ m', r = some m' → SameOutside array cnt size m m'

theorem Gives.bind {f : Option (ℕ → Fin size → UInt8)} {r : Option Memory}
    {g : (ℕ → Fin size → UInt8) → Option (ℕ → Fin size → UInt8)} {s : Memory → Option Memory}
    (h : Gives array cnt size m f r)
    (hnext : ∀ m', Gives array cnt size m' (g (entry m' array size)) (s m')) :
    Gives array cnt size m (f.bind g) (r.bind s) := by
  obtain ⟨hf, hout⟩ := h
  cases r with
  | none => exact ⟨by rw [← hf]; rfl, fun m' hm' => by cases hm'⟩
  | some m₁ =>
    obtain ⟨hg, hout'⟩ := hnext m₁
    refine ⟨by rw [← hf]; exact hg, fun m' hm' p hp => ?_⟩
    rw [hout' m' hm' p hp, hout m₁ rfl p hp]

theorem Gives.after {f : Option (ℕ → Fin size → UInt8)} {r : Option Memory} {m₁ : Memory}
    (h : Gives array cnt size m₁ f r) (hm : SameOutside array cnt size m m₁) :
    Gives array cnt size m f r :=
  ⟨h.1, fun m' hm' p hp => (h.2 m' hm' p hp).trans (hm p hp)⟩

/-- The choice of `heapify` is that of `largest`. -/
theorem heapify_succ (hi : 1 ≤ i) (hcnt : i ≤ cnt) (hsize : cnt < 2 ^ 31) :
    heapify compare aux (rounds + 1) m array i cnt =
      if largest (NotAbove compare aux) (entry m array size) i cnt = i then some m
      else heapify compare aux rounds
        (doSwap m array i (largest (NotAbove compare aux) (entry m array size) i cnt) size) array
        (largest (NotAbove compare aux) (entry m array size) i cnt) cnt := by
  have hgt : ∀ a b, 1 ≤ a → 1 ≤ b → (doCompare compare aux m array a b > 0 ↔
      ¬ NotAbove compare aux (entry m array size a) (entry m array size b)) := by
    intro a b ha hb
    rw [entry_of_pos ha, entry_of_pos hb]
    exact Int.not_le.symm
  have hleft : (if 2 * i ≤ cnt ∧ doCompare compare aux m array (2 * i) i > 0 then 2 * i else i) =
      if 2 * i ≤ cnt ∧ ¬ NotAbove compare aux (entry m array size (2 * i))
        (entry m array size i) then 2 * i else i :=
    if_congr (and_congr_right fun _ => hgt _ _ (by omega) hi) rfl rfl
  have hpos : 1 ≤ if 2 * i ≤ cnt ∧ ¬ NotAbove compare aux (entry m array size (2 * i))
      (entry m array size i) then 2 * i else i := by
    split_ifs <;> omega
  have hmax : largest (NotAbove compare aux) (entry m array size) i cnt = _ :=
    (if_congr (and_congr_right fun _ => hgt _ _ (by omega) hpos) rfl rfl).symm
  rw [heapify, hmax, ← hleft, Nat.mod_eq_of_lt (by omega), Nat.mod_eq_of_lt (by omega)]

section
variable (hcmp : StrcmpType compare aux)
include hcmp

/-- **`heapify` lets an element down.** -/
theorem heapify_gives {all : ℕ} (hi : 1 ≤ i) (hcnt : i ≤ cnt) (hall : cnt ≤ all)
    (hsize : cnt < 2 ^ 31) :
    Gives array all size m (floatDown (NotAbove compare aux) rounds (entry m array size) i cnt)
      (heapify compare aux rounds m array i cnt) := by
  induction rounds generalizing m i with
  | zero => exact ⟨rfl, fun m' hm' => by cases hm'⟩
  | succ rounds ih =>
    rw [heapify_succ hi hcnt hsize, floatDown]
    have hplace := (largest_isLargest hcmp.ranking (entry m array size) hi cnt).place
    split_ifs with hstop
    · exact ⟨rfl, fun m' hm' p _ => by rw [Option.some.inj hm']⟩
    · obtain ⟨-, hlt, hle⟩ := hplace.resolve_left hstop
      rw [← entry_doSwap hi (by omega)]
      exact (ih (by omega) hle).after (doSwap_outside ⟨hi, by omega⟩ ⟨by omega, by omega⟩)

theorem buildHeap_gives (hi : i ≤ cnt) (hsize : cnt < 2 ^ 31) :
    Gives array cnt size m (heapUp (NotAbove compare aux) rounds cnt i (entry m array size))
      (buildHeap compare aux rounds array cnt i m) := by
  induction i generalizing m with
  | zero => exact ⟨rfl, fun m' hm' p _ => by rw [Option.some.inj hm']⟩
  | succ i ih =>
    exact (heapify_gives hcmp (by omega) hi (Nat.le_refl cnt) hsize).bind
      fun m' => ih (by omega)

/-- The second half of `sort` does to the array what `takeDown` does to its entries. -/
theorem sortHeap_gives (hi : i ≤ cnt) (hsize : cnt < 2 ^ 31) :
    Gives array cnt size m (takeDown (NotAbove compare aux) rounds i (entry m array size))
      (sortHeap compare aux rounds array i m) := by
  induction i using Nat.strong_induction_on generalizing m with
  | _ i ih =>
    match i, ih, hi with
    | 0, _, _ => exact ⟨rfl, fun m' hm' p _ => by rw [Option.some.inj hm']⟩
    | 1, _, _ => exact ⟨rfl, fun m' hm' p _ => by rw [Option.some.inj hm']⟩
    | i + 2, ih, hi =>
      have hfirst : SameOutside array cnt size m (doSwap m array 1 (i + 2) size) :=
        doSwap_outside ⟨Nat.le_refl 1, by omega⟩ ⟨by omega, hi⟩
      have hdown : Gives array cnt size m
          (floatDown (NotAbove compare aux) rounds
            (entry (doSwap m array 1 (i + 2) size) array size) 1 (i + 1))
          (heapify compare aux rounds (doSwap m array 1 (i + 2) size) array 1 (i + 1)) :=
        (heapify_gives hcmp (Nat.le_refl 1) (by omega) (by omega) (by omega)).after hfirst
      rw [entry_doSwap (Nat.le_refl 1) (by omega)] at hdown
      exact hdown.bind fun m' => ih (i + 1) (by omega) (by omega)

/-- **`sort` is a sort by a heap of the elements**, and leaves what is not in the array. -/
theorem sort_gives (m : Memory) (rounds : ℕ) (harray : array ≠ 0 ∨ cnt = 0) (hpos : 0 < size)
    (hsize : cnt < 2 ^ 31) :
    Gives array cnt size m (heapSort (NotAbove compare aux) rounds cnt (entry m array size))
      (sort compare aux rounds m array cnt) := by
  rw [sort, if_pos ⟨harray, hpos⟩]
  exact (buildHeap_gives hcmp (by omega) hsize).bind
    fun m' => sortHeap_gives hcmp (Nat.le_refl cnt) hsize

end

/-! ### Searching -/

/-- The element with the number `k + 1`. -/
theorem elements_getElem {k : ℕ} (hk : k < (elements m array cnt size).length) :
    (elements m array cnt size)[k] = bytesAt m (array + k * size) size := by
  simp only [elements, places, List.getElem_map, List.getElem_range']
  rw [Nat.one_mul, Nat.add_comm 1 k]
  rfl

theorem length_elements (m : Memory) (array cnt size : ℕ) :
    (elements m array cnt size).length = cnt := by
  rw [elements, places, List.length_map, List.length_range']

theorem notAbove_of_sorted {j k : ℕ} (hcmp : StrcmpType compare aux)
    (hsorted : (elements m array cnt size).Pairwise (NotAbove compare aux)) (hjk : j ≤ k)
    (hk : k < cnt) :
    NotAbove compare aux (bytesAt m (array + j * size) size)
      (bytesAt m (array + k * size) size) := by
  rcases Nat.eq_or_lt_of_le hjk with rfl | hlt
  · exact hcmp.ranking.refl _
  · have hlen := length_elements m array cnt size
    have hpair := List.pairwise_iff_getElem.1 hsorted j k (by omega) (by omega) hlt
    rwa [elements_getElem, elements_getElem] at hpair

/-- What `binary_search` is for: the address of an element that is level with the key, and a null
pointer if there is none. -/
def Finds (compare : (Fin size → UInt8) → (Fin size → UInt8) → Aux → ℤ) (aux : Aux) (m : Memory)
    (array cnt : ℕ) (key : Fin size → UInt8) (r : Option (Option ℕ)) : Prop :=
  (∃ k < cnt, r = some (some (array + k * size)) ∧
    compare key (bytesAt m (array + k * size) size) aux = 0) ∨
  r = some none ∧ ∀ k < cnt, compare key (bytesAt m (array + k * size) size) aux ≠ 0

/-- A key below an element is below all later ones, one above an element above all earlier ones. -/
theorem compare_of_sorted {j k : ℕ} {key : Fin size → UInt8} (hcmp : StrcmpType compare aux)
    (hsorted : (elements m array cnt size).Pairwise (NotAbove compare aux)) (hjk : j ≤ k)
    (hk : k < cnt) :
    (compare key (bytesAt m (array + j * size) size) aux < 0 →
      compare key (bytesAt m (array + k * size) size) aux < 0) ∧
    (compare key (bytesAt m (array + k * size) size) aux > 0 →
      compare key (bytesAt m (array + j * size) size) aux > 0) := by
  have horder := notAbove_of_sorted hcmp hsorted hjk hk
  constructor
  · intro hbelow
    by_contra hnot
    have hback : compare (bytesAt m (array + k * size) size) key aux ≤ 0 :=
      not_lt.1 fun hgt => hnot ((hcmp.swap _ _).2 hgt)
    have hle := hcmp.trans _ _ _ horder hback
    exact absurd ((hcmp.swap _ _).1 hbelow) (not_lt.2 hle)
  · intro habove
    by_contra hnot
    exact absurd habove (not_lt.2 (hcmp.trans _ _ _ (not_lt.1 hnot) horder))

/-- **No element outside the rest of the array is level with the key**, so the search in the rest
is as good as one in all of it. -/
theorem searchLoop_finds (hcmp : StrcmpType compare aux) (hpos : 0 < size)
    {key : Fin size → UInt8} {lo hi : ℕ}
    (hsorted : (elements m array cnt size).Pairwise (NotAbove compare aux)) (hlo : lo ≤ hi)
    (hhi : hi ≤ cnt) (hrounds : hi - lo < 2 ^ rounds)
    (hrest : ∀ k < cnt, k < lo ∨ hi ≤ k →
      compare key (bytesAt m (array + k * size) size) aux ≠ 0) :
    Finds compare aux m array cnt key
      (searchLoop compare aux m key rounds (array + lo * size) (array + hi * size)) := by
  induction rounds generalizing lo hi with
  | zero =>
    obtain rfl : lo = hi := by omega
    exact .inr ⟨if_neg (Nat.lt_irrefl _), fun k hk => hrest k hk (Nat.lt_or_ge k lo)⟩
  | succ rounds ih =>
    rcases Nat.eq_or_lt_of_le hlo with rfl | hlt
    · exact .inr ⟨if_neg (Nat.lt_irrefl _), fun k hk => hrest k hk (Nat.lt_or_ge k lo)⟩
    have hfirst : array + lo * size < array + hi * size :=
      Nat.add_lt_add_left (Nat.mul_lt_mul_of_pos_right hlt hpos) array
    have hrange : (array + hi * size - (array + lo * size)) / size = hi - lo := by
      rw [Nat.add_sub_add_left, ← Nat.sub_mul, Nat.mul_div_cancel _ hpos]
    obtain ⟨mid, hmid⟩ : ∃ mid, mid = lo + (hi - lo) / 2 := ⟨_, rfl⟩
    have hmiddle : array + lo * size + (hi - lo) / 2 * size = array + mid * size := by
      rw [hmid, Nat.add_mul, Nat.add_assoc]
    have hnext : array + mid * size + size = array + (mid + 1) * size := by
      rw [Nat.succ_mul, Nat.add_assoc]
    rw [Nat.pow_succ] at hrounds
    simp only [searchLoop, if_pos hfirst, hrange, hmiddle, hnext]
    split_ifs with hneg hgt
    · refine ih (by omega) (by omega) (by omega) fun k hk hout => ?_
      rcases Nat.lt_or_ge k mid with hbefore | hafter
      · exact hrest k hk (by omega)
      · exact ((compare_of_sorted hcmp hsorted hafter hk).1 hneg).ne
    · refine ih (by omega) hhi (by omega) fun k hk hout => ?_
      rcases Nat.lt_or_ge mid k with hafter | hbefore
      · exact hrest k hk (by omega)
      · exact ((compare_of_sorted hcmp hsorted hbefore (by omega)).2 hgt).ne'
    · exact .inl ⟨mid, by omega, rfl, by omega⟩

/-- **`binary_search` finds what is in a sorted array.** -/
theorem binarySearch_finds (hcmp : StrcmpType compare aux) (hpos : 0 < size)
    (hsorted : (elements m array cnt size).Pairwise (NotAbove compare aux))
    (key : Fin size → UInt8) (hrounds : cnt < 2 ^ rounds) :
    Finds compare aux m array cnt key (binarySearch compare aux rounds m key array cnt) := by
  have hall : Finds compare aux m array cnt key
      (searchLoop compare aux m key rounds (array + 0 * size) (array + cnt * size)) :=
    searchLoop_finds hcmp hpos hsorted (Nat.zero_le cnt) (Nat.le_refl cnt) hrounds
      fun k hk hout => by omega
  rwa [Nat.zero_mul, Nat.add_zero, Nat.mul_comm cnt] at hall

/-- After `sort`, `binary_search` finds the keys that are there. -/
theorem sort_search (hcmp : StrcmpType compare aux) (hpos : 0 < size) (m : Memory)
    (harray : array ≠ 0 ∨ cnt = 0) (hsize : cnt < 2 ^ 31) :
    ∃ m', sort compare aux (Nat.log 2 cnt + 1) m array cnt = some m' ∧
      (elements m' array cnt size).Pairwise (fun a b => compare a b aux ≤ 0) ∧
      (elements m' array cnt size).Perm (elements m array cnt size) ∧
      (∀ p, p < array ∨ array + cnt * size ≤ p → m' p = m p) ∧
      ∀ key, (∃ k < cnt, binarySearch compare aux (Nat.log 2 cnt + 1) m' key array cnt =
          some (some (array + k * size)) ∧
          compare key (bytesAt m' (array + k * size) size) aux = 0) ∨
        binarySearch compare aux (Nat.log 2 cnt + 1) m' key array cnt = some none ∧
          ∀ e ∈ elements m array cnt size, compare key e aux ≠ 0 := by
  have hrounds : cnt < 2 ^ (Nat.log 2 cnt + 1) := Nat.lt_pow_succ_log_self (Nat.lt_succ_self 1) cnt
  obtain ⟨g, hg, hsorted, hre⟩ :=
    heapSort_spec hcmp.ranking (entry m array size) hrounds
  obtain ⟨hmap, hout⟩ := sort_gives hcmp m (Nat.log 2 cnt + 1) harray hpos hsize
  rw [hg] at hmap
  obtain ⟨m', hm', rfl⟩ := Option.map_eq_some_iff.1 hmap
  refine ⟨m', hm', hsorted, hre.perm, hout m' hm', fun key => ?_⟩
  refine (binarySearch_finds hcmp hpos hsorted key hrounds).imp id fun ⟨hnone, hall⟩ => ⟨hnone, ?_⟩
  intro e he
  obtain ⟨k, hk, rfl⟩ := List.mem_iff_getElem.1 (hre.perm.mem_iff.2 he)
  change (elements m' array cnt size).length > k at hk
  change compare key (elements m' array cnt size)[k] aux ≠ 0
  rw [elements_getElem]
  rw [length_elements] at hk
  exact hall k hk

/-- **An array that `sort` sorted has its elements in order, and `binary_search` finds each.**
Every `heapify`, and the search, makes at most `log₂ cnt + 1` rounds. -/
theorem sort_binarySearch (hcmp : StrcmpType compare aux) (hpos : 0 < size) (m : Memory)
    (harray : array ≠ 0 ∨ cnt = 0) (hsize : cnt < 2 ^ 31) :
    ∃ m', sort compare aux (Nat.log 2 cnt + 1) m array cnt = some m' ∧
      (elements m' array cnt size).Pairwise (fun a b => compare a b aux ≤ 0) ∧
      (elements m' array cnt size).Perm (elements m array cnt size) ∧
      (∀ p, p < array ∨ array + cnt * size ≤ p → m' p = m p) ∧
      ∀ key, (∃ k < cnt, binarySearch compare aux (Nat.log 2 cnt + 1) m' key array cnt =
          some (some (array + k * size)) ∧
          compare key (bytesAt m' (array + k * size) size) aux = 0) ∨
        binarySearch compare aux (Nat.log 2 cnt + 1) m' key array cnt = some none ∧
          ∀ e ∈ elements m array cnt size, compare key e aux ≠ 0 :=
  sort_search hcmp hpos m harray hsize

/-- **`qsort` and `bsearch`**, for a function that makes of two elements a `strcmp()`-type result. -/
theorem qsort_bsearch {compare : (Fin size → UInt8) → (Fin size → UInt8) → ℤ}
    (hcmp : StrcmpType compareThunk compare) (hpos : 0 < size) (m : Memory)
    (harray : array ≠ 0 ∨ cnt = 0) (hsize : cnt < 2 ^ 31) :
    ∃ m', qsort compare (Nat.log 2 cnt + 1) m array cnt = some m' ∧
      (elements m' array cnt size).Pairwise (fun a b => compare a b ≤ 0) ∧
      (elements m' array cnt size).Perm (elements m array cnt size) ∧
      (∀ p, p < array ∨ array + cnt * size ≤ p → m' p = m p) ∧
      ∀ key, (∃ k < cnt, bsearch compare (Nat.log 2 cnt + 1) m' key array cnt =
          some (some (array + k * size)) ∧ compare key (bytesAt m' (array + k * size) size) = 0) ∨
        bsearch compare (Nat.log 2 cnt + 1) m' key array cnt = some none ∧
          ∀ e ∈ elements m array cnt size, compare key e ≠ 0 :=
  sort_search hcmp hpos m harray hsize

/-- Bytes compared as numbers. -/
def compareBytes (a b : Fin 1 → UInt8) (_ : Unit) : ℤ :=
  (a ⟨0, Nat.one_pos⟩).toNat - (b ⟨0, Nat.one_pos⟩).toNat

/-- **Five bytes sorted**: a search for 4 finds one, a search for 2 none. -/
theorem sort_binarySearch_bytes :
    StrcmpType compareBytes () ∧ ∃ m', sort compareBytes () (Nat.log 2 5 + 1)
        (store (fun _ => 7) 40 [3, 1, 4, 1, 5]) 40 5 = some m' ∧
      (elements m' 40 5 1).Pairwise (fun a b => compareBytes a b () ≤ 0) ∧
      (∃ k < 5, binarySearch compareBytes () (Nat.log 2 5 + 1) m' (fun _ => 4) 40 5 =
        some (some (40 + k * 1))) ∧
      binarySearch compareBytes () (Nat.log 2 5 + 1) m' (fun _ => 2) 40 5 = some none := by
  have hcmp : StrcmpType compareBytes () :=
    ⟨fun a b => by unfold compareBytes; omega, fun a b c => by unfold compareBytes; omega⟩
  have harray : (40 : ℕ) ≠ 0 ∨ 5 = 0 := .inl (by omega)
  have hsize : (5 : ℕ) < 2 ^ 31 := by omega
  obtain ⟨m', hm', hsorted, hperm, -, hfinds⟩ := sort_binarySearch hcmp (Nat.lt_succ_self 0)
    (store (fun _ => 7) 40 [3, 1, 4, 1, 5]) harray hsize
  refine ⟨hcmp, m', hm', hsorted, ?_, ?_⟩
  · rcases hfinds fun _ => 4 with ⟨k, hk, hfound, -⟩ | ⟨-, hall⟩
    · exact ⟨k, hk, hfound⟩
    · have hmem : (fun _ => 4) ∈ elements (store (fun _ => 7) 40 [3, 1, 4, 1, 5]) 40 5 1 :=
        List.mem_map.2 ⟨3, by decide, funext fun i => by obtain rfl : i = 0 := Subsingleton.elim i 0; rfl⟩
      exact absurd (by decide) (hall (fun _ => 4) hmem)
  · rcases hfinds fun _ => 2 with ⟨k, hk, -, hlevel⟩ | ⟨hnone, -⟩
    · have hmem : bytesAt m' (40 + k * 1) 1 ∈ elements m' 40 5 1 :=
        List.mem_map.2 ⟨k + 1, List.mem_range'_1.2 ⟨by omega, by omega⟩,
          entry_of_pos (Nat.le_add_left 1 k)⟩
      have hnotTwo : (elements (store (fun _ => 7) 40 [3, 1, 4, 1, 5]) 40 5 1).all
          (fun e => decide (compareBytes (fun _ => 2) e () ≠ 0)) = true := by decide
      exact absurd hlevel (of_decide_eq_true (List.all_eq_true.1 hnotTwo _ (hperm.mem_iff.1 hmem)))
    · exact hnone

example : (sort compareBytes () 2 (store (fun _ => 7) 40 [3, 1, 2]) 40 3).map
    (fun m => (elements m 39 5 1).map (· ⟨0, Nat.one_pos⟩)) = some [7, 1, 2, 3, 7] := by decide

end Lib
end CS162

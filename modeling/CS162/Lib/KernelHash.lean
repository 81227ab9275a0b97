/-
# Hash tables

`projects1-3/src/lib/kernel/hash.c`: chains of elements that the caller owns, in a number of buckets
that follows the number of elements.

An element is what a `struct hash_elem` is embedded in; two of them are the same one when they are at
one address, and equal (`Same`) when neither is less than the other.  `hash` and `less` are what the
caller passes.  A table may get memory for its new buckets or not: either way it is a finite map from
what is equal to the one element that is stored for it, over any calls, and an iterator comes to each
element once (`hash_refines`).

There is memory for the first four buckets.
-/

import Mathlib.Data.List.Pairwise
import Mathlib.Data.Nat.Bitwise
import Mathlib.Data.Nat.Log
import CS162.Basis.Buckets
import CS162.Lib.KernelList

namespace CS162
namespace Lib

open CS162.Basis

/-! ### The functions -/

/-- `struct hash`, without the functions. -/
structure Hash (α : Type) where
  elemCnt : ℕ
  bucketCnt : ℕ
  buckets : ℕ → List α

/-- `turn_off_least_1bit`. -/
def turnOffLeast1bit (x : ℕ) : ℕ := x &&& (x - 1)

/-- `is_power_of_2`. -/
def isPowerOf2 (x : ℕ) : Bool := x ≠ 0 && turnOffLeast1bit x = 0

/-- The loop of `rehash` for a number that is not zero. -/
def roundDown (cnt : ℕ) : ℕ :=
  if isPowerOf2 cnt ∨ cnt = 0 then cnt else roundDown (turnOffLeast1bit cnt)
termination_by cnt
decreasing_by
  have hle : turnOffLeast1bit cnt ≤ cnt - 1 := Nat.and_le_right
  omega

/-- The number of buckets for `elemCnt` elements. -/
def newBucketCnt (elemCnt : ℕ) : ℕ := roundDown (if elemCnt / 2 < 4 then 4 else elemCnt / 2)

section Table

variable {α : Type} (hash : α → UInt32) (less : α → α → Bool)

/-- The bucket of `e` among `bucketCnt`. -/
def bucketIdx (bucketCnt : ℕ) (e : α) : ℕ := (hash e).toNat &&& (bucketCnt - 1)

/-- `find_bucket`. -/
def findBucket (h : Hash α) (e : α) : ℕ := bucketIdx hash h.bucketCnt e

/-- `find_elem`. -/
def findElem (bucket : List α) (e : α) : Option α := bucket.find? fun hi => !less hi e && !less e hi

/-- `insert_elem`. -/
def insertElem (h : Hash α) (bucket : ℕ) (e : α) : Hash α :=
  { h with elemCnt := h.elemCnt + 1, buckets := putBucket h.buckets bucket e }

/-- `remove_elem`, which unlinks `e` wherever it is. -/
def removeElem [DecidableEq α] (h : Hash α) (e : α) : Hash α :=
  { h with elemCnt := h.elemCnt - 1, buckets := fun i => (h.buckets i).erase e }

/-- All elements, in the order of the buckets. -/
def Hash.elems (h : Hash α) : List α := inBuckets h.buckets h.bucketCnt

/-- `rehash`; `memory` tells whether `malloc` returns new buckets. -/
def rehash (h : Hash α) (memory : Bool) : Hash α :=
  let cnt := newBucketCnt h.elemCnt
  if cnt = h.bucketCnt then h
  else if memory then
    { h with
      bucketCnt := cnt
      buckets := h.elems.foldl (fun b e => putBucket b (bucketIdx hash cnt e) e) fun _ => [] }
  else h

/-- `hash_init`. -/
def hashInit : Hash α := ⟨0, 4, fun _ => []⟩

/-- `hash_clear`. -/
def hashClear (h : Hash α) : Hash α := { h with elemCnt := 0, buckets := fun _ => [] }

/-- `hash_find`. -/
def hashFind (h : Hash α) (e : α) : Option α := findElem less (h.buckets (findBucket hash h e)) e

/-- `hash_insert`. -/
def hashInsert (h : Hash α) (new : α) (memory : Bool) : Option α × Hash α :=
  let bucket := findBucket hash h new
  let old := findElem less (h.buckets bucket) new
  let h := if old = none then insertElem h bucket new else h
  (old, rehash hash h memory)

/-- `hash_replace`. -/
def hashReplace [DecidableEq α] (h : Hash α) (new : α) (memory : Bool) : Option α × Hash α :=
  let bucket := findBucket hash h new
  let old := findElem less (h.buckets bucket) new
  let h := match old with
    | none => h
    | some e => removeElem h e
  (old, rehash hash (insertElem h bucket new) memory)

/-- `hash_delete`. -/
def hashDelete [DecidableEq α] (h : Hash α) (e : α) (memory : Bool) : Option α × Hash α :=
  match hashFind hash less h e with
  | none => (none, h)
  | some found => (some found, rehash hash (removeElem h found) memory)

/-! ### Iterators -/

/-- `struct hash_iterator`: a bucket, and a place in it.  The head of the list is place 0, its
elements are the ones after it, and its tail comes last. -/
structure HashIterator where
  bucket : ℕ
  place : ℕ

/-- `hash_first`. -/
def hashFirst : HashIterator := ⟨0, 0⟩

/-- The loop of `hash_next`, for no more than `turns` buckets; `none` is the null pointer. -/
def skipBuckets (h : Hash α) : ℕ → HashIterator → Option HashIterator
  | 0, _ => none
  | turns + 1, i =>
    if i.place = (h.buckets i.bucket).length + 1 then
      if h.bucketCnt ≤ i.bucket + 1 then none else skipBuckets h turns ⟨i.bucket + 1, 1⟩
    else some i

/-- `hash_next`, with the element that it returns. -/
def hashNext (h : Hash α) (i : HashIterator) : Option (α × HashIterator) := do
  let i ← skipBuckets h h.bucketCnt ⟨i.bucket, i.place + 1⟩
  let e ← (h.buckets i.bucket)[i.place - 1]?
  return (e, i)

/-- What calls of `hash_next` return, up to the null pointer and `turns` of them at most. -/
def iterate (h : Hash α) : ℕ → HashIterator → List α
  | 0, _ => []
  | turns + 1, i =>
    match hashNext h i with
    | none => []
    | some (e, i) => e :: iterate h turns i

/-! ### Calls -/

/-- A call, and whether there would be memory for new buckets. -/
inductive HashCall (α : Type) where
  | insert (new : α) (memory : Bool)
  | replace (new : α) (memory : Bool)
  | find (e : α)
  | delete (e : α) (memory : Bool)
  | clear

/-- There is memory. -/
def HashCall.HasMemory : HashCall α → Prop
  | .insert _ memory | .replace _ memory | .delete _ memory => memory = true
  | .find _ | .clear => True

def HashCall.perform [DecidableEq α] (h : Hash α) : HashCall α → Option α × Hash α
  | .insert new memory => hashInsert hash less h new memory
  | .replace new memory => hashReplace hash less h new memory
  | .find e => (hashFind hash less h e, h)
  | .delete e memory => hashDelete hash less h e memory
  | .clear => (none, hashClear h)

/-- Calls one after the other: what they return, and the table after them. -/
def hashCalls [DecidableEq α] (h : Hash α) : List (HashCall α) → List (Option α) × Hash α
  | [] => ([], h)
  | c :: cs =>
    let r := c.perform hash less h
    let rest := hashCalls r.2 cs
    (r.1 :: rest.1, rest.2)

/-! ### What a table is for -/

/-- Neither is less than the other. -/
def Same (a b : α) : Prop := less a b = false ∧ less b a = false

instance (a b : α) : Decidable (Same less a b) := inferInstanceAs (Decidable (_ ∧ _))

/-- A call on a finite map, which gives for each element the one that is stored for its equals. -/
def HashCall.look (F : α → Option α) : HashCall α → Option α × (α → Option α)
  | .insert new _ =>
    match F new with
    | some old => (some old, F)
    | none => (none, fun e => if Same less new e then some new else F e)
  | .replace new _ => (F new, fun e => if Same less new e then some new else F e)
  | .find e => (F e, F)
  | .delete e _ => (F e, fun x => if Same less e x then none else F x)
  | .clear => (none, fun _ => none)

def lookCalls (F : α → Option α) : List (HashCall α) → List (Option α) × (α → Option α)
  | [] => ([], F)
  | c :: cs =>
    let r := c.look less F
    let rest := lookCalls r.2 cs
    (r.1 :: rest.1, rest.2)

end Table

/-! ### The number of buckets -/

/-- The highest bit stays. -/
theorem le_turnOffLeast1bit {m k : ℕ} (hgt : 2 ^ k < m) (hlt : m < 2 ^ (k + 1)) :
    2 ^ k ≤ turnOffLeast1bit m := by
  have hbit : m.testBit k = true := Nat.testBit_of_two_pow_le_and_two_pow_add_one_gt hgt.le hlt
  have hbit' : (m - 1).testBit k = true :=
    Nat.testBit_of_two_pow_le_and_two_pow_add_one_gt (by omega) (by omega)
  refine Nat.ge_two_pow_of_testBit ?_
  rw [turnOffLeast1bit, Nat.testBit_and, hbit, hbit']
  rfl

/-- **The highest bit alone** is left. -/
theorem roundDown_eq {m k : ℕ} (hge : 2 ^ k ≤ m) (hlt : m < 2 ^ (k + 1)) : roundDown m = 2 ^ k := by
  induction m using Nat.strongRecOn with
  | _ m ih =>
    have hpos : 0 < 2 ^ k := Nat.two_pow_pos k
    rcases Nat.eq_or_lt_of_le hge with rfl | hgt
    · have hzero : turnOffLeast1bit (2 ^ k) = 0 := by
        rw [turnOffLeast1bit, Nat.and_two_pow_sub_one_eq_mod, Nat.mod_self]
      rw [roundDown, if_pos]
      left
      simp [isPowerOf2, hzero]
    · have hle := le_turnOffLeast1bit hgt hlt
      have hsmall : turnOffLeast1bit m ≤ m - 1 := Nat.and_le_right
      rw [roundDown, if_neg]
      · exact ih _ (by omega) hle (by omega)
      · rintro (hpow | hzero)
        · simp only [isPowerOf2, Bool.and_eq_true, decide_eq_true_eq] at hpow
          omega
        · omega

/-- The buckets that are aimed at are a power of two, and enough. -/
theorem newBucketCnt_spec (elemCnt : ℕ) :
    (∃ k, newBucketCnt elemCnt = 2 ^ k) ∧ elemCnt < 4 * newBucketCnt elemCnt := by
  unfold newBucketCnt
  generalize hm : (if elemCnt / 2 < 4 then 4 else elemCnt / 2) = m
  have hfour : 4 ≤ m := by
    split_ifs at hm <;> omega
  have hhalf : elemCnt / 2 ≤ m := by
    split_ifs at hm <;> omega
  have hge : 2 ^ Nat.log 2 m ≤ m := Nat.pow_log_le_self 2 (by omega)
  have hlt : m < 2 ^ (Nat.log 2 m + 1) := Nat.lt_pow_succ_log_self (by decide) m
  rw [roundDown_eq hge hlt]
  refine ⟨⟨_, rfl⟩, ?_⟩
  rw [Nat.pow_succ] at hlt
  omega

/-! ### What holds of a table -/

section Equal

variable {α : Type} {less : α → α → Bool} (hless : StrictWeak less)

include hless

theorem same_refl (a : α) : Same less a a := by
  have hirrefl : less a a = false := by
    by_contra htrue
    rw [Bool.not_eq_false] at htrue
    rw [hless.asymm a a htrue] at htrue
    cases htrue
  exact ⟨hirrefl, hirrefl⟩

theorem Same.trans {a b c : α} (h : Same less a b) (h' : Same less b c) : Same less a c :=
  ⟨hless.cotrans a b c h.1 h'.1, hless.cotrans c b a h'.2 h.2⟩

omit hless in
theorem Same.symm {a b : α} (h : Same less a b) : Same less b a := ⟨h.2, h.1⟩

omit hless in
/-- Of things no two of which are equal, equal ones are the same one. -/
theorem eq_of_apart {l : List α} (h : l.Pairwise fun a b => ¬Same less a b) {a b : α} (ha : a ∈ l)
    (hb : b ∈ l) (hab : Same less a b) : a = b := by
  by_contra hne
  have hsymm : Std.Symm fun a b => ¬Same less a b := ⟨fun _ _ hnot hsame => hnot hsame.symm⟩
  exact h.forall ha hb hne hab

end Equal

section Invariant

variable {α : Type} (hash : α → UInt32) (less : α → α → Bool)

/-- What holds of a table between two calls. -/
structure Hashed (h : Hash α) : Prop where
  pow : ∃ k, h.bucketCnt = 2 ^ k
  place : ∀ i < h.bucketCnt, ∀ e ∈ h.buckets i, findBucket hash h e = i
  apart : h.elems.Pairwise fun a b => ¬Same less a b
  count : h.elemCnt = h.elems.length

variable {hash less} {h h' : Hash α}

theorem Hashed.pos (hh : Hashed hash less h) : 0 < h.bucketCnt := by
  obtain ⟨k, hk⟩ := hh.pow
  rw [hk]
  exact Nat.two_pow_pos k

theorem bucketIdx_lt {bucketCnt : ℕ} (hpos : 0 < bucketCnt) (e : α) :
    bucketIdx hash bucketCnt e < bucketCnt := by
  have hle : bucketIdx hash bucketCnt e ≤ bucketCnt - 1 := Nat.and_le_right
  omega

theorem hashed_hashInit : Hashed hash less (hashInit : Hash α) where
  pow := ⟨2, rfl⟩
  place _ _ _ he := by cases he
  apart := List.Pairwise.nil
  count := rfl

theorem hashed_hashClear (hh : Hashed hash less h) : Hashed hash less (hashClear h) := by
  have hempty : (hashClear h).elems = [] := by
    rw [Hash.elems, hashClear, inBuckets]
    simp
  refine ⟨hh.pow, fun _ _ _ he => (List.not_mem_nil he).elim, ?_, ?_⟩
  · rw [hempty]
    exact List.Pairwise.nil
  · rw [hempty]
    rfl

theorem findElem_some {bucket : List α} {e x : α} (h : findElem less bucket e = some x) :
    x ∈ bucket ∧ Same less x e := by
  have hsame := List.find?_some h
  simp only [Bool.and_eq_true, Bool.not_eq_true'] at hsame
  exact ⟨List.mem_of_find?_eq_some h, hsame⟩

/-- **`hash_find`** finds what is in the table and equal. -/
theorem Hashed.find_iff (hless : StrictWeak less) (hhash : ∀ a b, Same less a b → hash a = hash b)
    (hh : Hashed hash less h) {e x : α} :
    hashFind hash less h e = some x ↔ x ∈ h.elems ∧ Same less x e := by
  constructor
  · intro hfind
    obtain ⟨hmem, hsame⟩ := findElem_some hfind
    exact ⟨mem_inBuckets.2 ⟨_, bucketIdx_lt hh.pos e, hmem⟩, hsame⟩
  · rintro ⟨hmem, hsame⟩
    obtain ⟨i, hi, hx⟩ := mem_inBuckets.1 hmem
    have hbucket : findBucket hash h e = i := by
      rw [← hh.place i hi x hx, findBucket, findBucket, bucketIdx, bucketIdx, hhash x e hsame]
    rw [hashFind, hbucket]
    cases hfind : findElem less (h.buckets i) e with
    | none =>
      have hnone := List.find?_eq_none.1 hfind x hx
      simp [hsame.1, hsame.2] at hnone
    | some y =>
      obtain ⟨hy, hsame'⟩ := findElem_some hfind
      exact congrArg some (eq_of_apart hh.apart (mem_inBuckets.2 ⟨i, hi, hy⟩) hmem
        (hsame'.trans hless hsame.symm))

theorem Hashed.of_perm {l : List α} (hh : Hashed hash less h) (hl : h.elems.Perm l) :
    (l.Pairwise fun a b => ¬Same less a b) ∧ h.elemCnt = l.length := by
  refine ⟨(hl.pairwise_iff fun hnot hsame => hnot hsame.symm).1 hh.apart, ?_⟩
  rw [hh.count, hl.length_eq]

theorem elems_insertElem (hh : Hashed hash less h) (new : α) :
    (insertElem h (findBucket hash h new) new).elems.Perm (new :: h.elems) :=
  inBuckets_put (bucketIdx_lt hh.pos new) new

/-- An element that nothing in the table is equal to is inserted. -/
theorem Hashed.insertElem (hh : Hashed hash less h) {new : α}
    (hnew : ∀ x ∈ h.elems, ¬Same less new x) :
    Hashed hash less (Lib.insertElem h (findBucket hash h new) new) := by
  have hperm := elems_insertElem hh new
  refine ⟨hh.pow, fun i hi e he => ?_, ?_, ?_⟩
  · change e ∈ putBucket h.buckets (findBucket hash h new) new i at he
    by_cases heq : i = findBucket hash h new
    · rw [putBucket, heq, Function.update_self] at he
      rcases List.mem_cons.1 he with rfl | he
      · exact heq.symm
      · exact hh.place i hi e (heq ▸ he)
    · rw [putBucket, Function.update_of_ne heq] at he
      exact hh.place i hi e he
  · exact (hperm.pairwise_iff fun hnot hsame => hnot hsame.symm).2
      (List.pairwise_cons.2 ⟨hnew, hh.apart⟩)
  · rw [hperm.length_eq, List.length_cons, ← hh.count]
    rfl

section Remove

variable [DecidableEq α]

theorem elems_removeElem (hh : Hashed hash less h) {x : α} (hx : x ∈ h.elems) :
    h.elems.Perm (x :: (removeElem h x).elems) := by
  obtain ⟨i, hi, hmem⟩ := mem_inBuckets.1 hx
  refine inBuckets_erase hi hmem fun j hj hne hmem' => hne ?_
  rw [← hh.place j hj x hmem', hh.place i hi x hmem]

/-- An element of the table is removed. -/
theorem Hashed.removeElem (hh : Hashed hash less h) {x : α} (hx : x ∈ h.elems) :
    Hashed hash less (Lib.removeElem h x) := by
  obtain ⟨hapart, hcount⟩ := hh.of_perm (elems_removeElem hh hx)
  refine ⟨hh.pow, fun i hi e he => hh.place i hi e (List.mem_of_mem_erase he),
    (List.pairwise_cons.1 hapart).2, ?_⟩
  change h.elemCnt - 1 = _
  rw [hcount, List.length_cons, Nat.add_sub_cancel]

end Remove

/-- **`rehash`** moves every element to its new bucket, or leaves all of them where they are. -/
theorem Hashed.rehash (hh : Hashed hash less h) (memory : Bool) :
    Hashed hash less (Lib.rehash hash h memory) ∧ (Lib.rehash hash h memory).elems.Perm h.elems := by
  unfold Lib.rehash
  dsimp only
  split_ifs with hsame hmemory
  · exact ⟨hh, .refl _⟩
  · obtain ⟨hpow, -⟩ := newBucketCnt_spec h.elemCnt
    have hpos : 0 < newBucketCnt h.elemCnt := by
      obtain ⟨k, hk⟩ := hpow
      rw [hk]
      exact Nat.two_pow_pos k
    have hperm := inBuckets_distribute (b := fun _ => []) (bucketIdx hash (newBucketCnt h.elemCnt))
      (l := h.elems) (n := newBucketCnt h.elemCnt) fun e _ => bucketIdx_lt hpos e
    have hempty : inBuckets (fun _ => ([] : List α)) (newBucketCnt h.elemCnt) = [] := by
      simp [inBuckets]
    rw [hempty, List.append_nil] at hperm
    refine ⟨⟨hpow, fun i _ e he => ?_, ?_, ?_⟩, hperm⟩
    · rcases mem_distribute he with hnil | ⟨-, hidx⟩
      · cases hnil
      · exact hidx
    · exact (hperm.pairwise_iff fun hnot hsame => hnot hsame.symm).2 hh.apart
    · exact hh.count.trans hperm.length_eq.symm
  · exact ⟨hh, .refl _⟩

end Invariant

/-! ### What a call finds -/

section Find

variable {α : Type} {hash : α → UInt32} {less : α → α → Bool} {h h' : Hash α}
  (hless : StrictWeak less) (hhash : ∀ a b, Same less a b → hash a = hash b)

include hless hhash

theorem hashFind_perm (hh : Hashed hash less h) (hh' : Hashed hash less h')
    (hperm : h'.elems.Perm h.elems) (e : α) : hashFind hash less h' e = hashFind hash less h e :=
  Option.ext fun x => by
    rw [hh.find_iff hless hhash, hh'.find_iff hless hhash, hperm.mem_iff]

/-- What is found once an element is added. -/
theorem hashFind_cons (hh : Hashed hash less h) (hh' : Hashed hash less h') {new : α}
    (hperm : h'.elems.Perm (new :: h.elems)) (e : α) :
    hashFind hash less h' e = if Same less new e then some new else hashFind hash less h e := by
  have hapart := List.pairwise_cons.1 (hh'.of_perm hperm).1
  refine Option.ext fun x => ?_
  rw [hh'.find_iff hless hhash, hperm.mem_iff, List.mem_cons]
  split_ifs with hsame
  · rw [Option.some_inj]
    constructor
    · rintro ⟨rfl | hx, hxe⟩
      · rfl
      · exact absurd (hsame.trans hless hxe.symm) (hapart.1 x hx)
    · rintro rfl
      exact ⟨.inl rfl, hsame⟩
  · rw [hh.find_iff hless hhash]
    refine and_congr_left fun hxe => or_iff_right ?_
    rintro rfl
    exact hsame hxe

theorem hashFind_erase (hh : Hashed hash less h) (hh' : Hashed hash less h') {old : α}
    (hperm : h.elems.Perm (old :: h'.elems)) (e : α) :
    hashFind hash less h' e = if Same less old e then none else hashFind hash less h e := by
  have hcons := hashFind_cons hless hhash hh' hh hperm e
  have hapart := List.pairwise_cons.1 (hh.of_perm hperm).1
  split_ifs with hsame
  · refine Option.eq_none_iff_forall_ne_some.2 fun x hx => ?_
    obtain ⟨hmem, hxe⟩ := (hh'.find_iff hless hhash).1 hx
    exact hapart.1 x hmem (hsame.trans hless hxe.symm)
  · rw [hcons, if_neg hsame]

end Find

/-! ### One call -/

section Call

variable {α : Type} [DecidableEq α] {hash : α → UInt32} {less : α → α → Bool} {h : Hash α}
  (hless : StrictWeak less) (hhash : ∀ a b, Same less a b → hash a = hash b)

include hless hhash

omit [DecidableEq α] in
/-- Nothing is equal to what is not found. -/
theorem find_none (hh : Hashed hash less h) {e : α} (hnone : hashFind hash less h e = none) {x : α}
    (hx : x ∈ h.elems) : ¬Same less e x := fun hsame => by
  have hsome := (hh.find_iff hless hhash).2 ⟨hx, hsame.symm⟩
  rw [hnone] at hsome
  cases hsome

omit [DecidableEq α] in
/-- `hash_insert` puts the element in unless it has an equal, which it returns. -/
theorem hashInsert_spec (hh : Hashed hash less h) (new : α) (memory : Bool) :
    (hashInsert hash less h new memory).1 = hashFind hash less h new ∧
      Hashed hash less (hashInsert hash less h new memory).2 ∧
      ∀ e, hashFind hash less (hashInsert hash less h new memory).2 e =
        if hashFind hash less h new = none ∧ Same less new e then some new
        else hashFind hash less h e := by
  unfold hashInsert
  dsimp only
  change _ ∧ Hashed hash less (rehash hash (if hashFind hash less h new = none then _ else h) memory) ∧
    ∀ e, hashFind hash less (rehash hash (if hashFind hash less h new = none then _ else h) memory) e = _
  refine ⟨rfl, ?_⟩
  by_cases hnone : hashFind hash less h new = none
  · have hinsert := hh.insertElem fun x hx => find_none hless hhash hh hnone hx
    obtain ⟨hh', hperm⟩ := hinsert.rehash memory
    rw [if_pos hnone]
    refine ⟨hh', fun e => ?_⟩
    rw [hashFind_perm hless hhash hinsert hh' hperm,
      hashFind_cons hless hhash hh hinsert (elems_insertElem hh new)]
    simp only [hnone, true_and]
  · obtain ⟨hh', hperm⟩ := hh.rehash memory
    rw [if_neg hnone]
    refine ⟨hh', fun e => ?_⟩
    rw [hashFind_perm hless hhash hh hh' hperm, if_neg fun hboth => hnone hboth.1]

/-- `hash_delete` takes the equal element out and returns it. -/
theorem hashDelete_spec (hh : Hashed hash less h) (e : α) (memory : Bool) :
    (hashDelete hash less h e memory).1 = hashFind hash less h e ∧
      Hashed hash less (hashDelete hash less h e memory).2 ∧
      ∀ x, hashFind hash less (hashDelete hash less h e memory).2 x =
        if Same less e x then none else hashFind hash less h x := by
  unfold hashDelete
  cases hfind : hashFind hash less h e with
  | none =>
    refine ⟨rfl, hh, fun x => ?_⟩
    split_ifs with hsame
    · refine Option.eq_none_iff_forall_ne_some.2 fun y hy => ?_
      obtain ⟨hmem, hyx⟩ := (hh.find_iff hless hhash).1 hy
      exact find_none hless hhash hh hfind hmem (hsame.trans hless hyx.symm)
    · rfl
  | some found =>
    obtain ⟨hmem, hsame⟩ := (hh.find_iff hless hhash).1 hfind
    have hremove := hh.removeElem hmem
    obtain ⟨hh', hperm⟩ := hremove.rehash memory
    refine ⟨rfl, hh', fun x => ?_⟩
    have hiff : Same less found x ↔ Same less e x :=
      ⟨hsame.symm.trans hless, hsame.trans hless⟩
    rw [hashFind_perm hless hhash hremove hh' hperm,
      hashFind_erase hless hhash hh hremove (elems_removeElem hh hmem)]
    simp only [hiff]

/-- `hash_replace` puts the element in, and returns the equal one that was there. -/
theorem hashReplace_spec (hh : Hashed hash less h) (new : α) (memory : Bool) :
    (hashReplace hash less h new memory).1 = hashFind hash less h new ∧
      Hashed hash less (hashReplace hash less h new memory).2 ∧
      ∀ e, hashFind hash less (hashReplace hash less h new memory).2 e =
        if Same less new e then some new else hashFind hash less h e := by
  unfold hashReplace
  dsimp only
  change _ ∧ Hashed hash less (rehash hash (insertElem (match hashFind hash less h new with
      | none => h
      | some e => removeElem h e) _ new) memory) ∧
    ∀ e, hashFind hash less (rehash hash (insertElem (match hashFind hash less h new with
      | none => h
      | some e => removeElem h e) _ new) memory) e = _
  refine ⟨rfl, ?_⟩
  cases hfind : hashFind hash less h new with
  | none =>
    have hinsert := hh.insertElem fun x hx => find_none hless hhash hh hfind hx
    obtain ⟨hh', hperm⟩ := hinsert.rehash memory
    refine ⟨hh', fun e => ?_⟩
    rw [hashFind_perm hless hhash hinsert hh' hperm]
    exact hashFind_cons hless hhash hh hinsert (elems_insertElem hh new) e
  | some old =>
    obtain ⟨hmem, hsame⟩ := (hh.find_iff hless hhash).1 hfind
    have hremove := hh.removeElem hmem
    have hout : ∀ x ∈ (removeElem h old).elems, ¬Same less new x := fun x hx hnew => by
      have hapart := List.pairwise_cons.1 (hh.of_perm (elems_removeElem hh hmem)).1
      exact hapart.1 x hx (hsame.trans hless hnew)
    have hinsert := hremove.insertElem hout
    obtain ⟨hh', hperm⟩ := hinsert.rehash memory
    refine ⟨hh', fun e => ?_⟩
    refine (hashFind_perm hless hhash hinsert hh' hperm e).trans ?_
    rw [hashFind_cons hless hhash hremove hinsert (elems_insertElem hremove new),
      hashFind_erase hless hhash hh hremove (elems_removeElem hh hmem)]
    split_ifs with hnew hold
    · rfl
    · exact absurd (hsame.symm.trans hless hold) hnew
    · rfl

/-- **One call** returns what a finite map returns, and leaves a table that stands for it again. -/
theorem HashCall.perform_look {F : α → Option α} (hh : Hashed hash less h)
    (hF : ∀ e, hashFind hash less h e = F e) (c : HashCall α) :
    (c.perform hash less h).1 = (c.look less F).1 ∧ Hashed hash less (c.perform hash less h).2 ∧
      ∀ e, hashFind hash less (c.perform hash less h).2 e = (c.look less F).2 e := by
  cases c with
  | insert new memory =>
    obtain ⟨hret, hh', hfind⟩ := hashInsert_spec hless hhash hh new memory
    rw [hF] at hret
    simp only [hF] at hfind
    unfold HashCall.perform HashCall.look
    dsimp only
    cases hnew : F new with
    | none =>
      refine ⟨hret.trans hnew, hh', fun e => (hfind e).trans ?_⟩
      simp only [hnew, true_and]
    | some old =>
      refine ⟨hret.trans hnew, hh', fun e => (hfind e).trans ?_⟩
      dsimp only
      rw [if_neg]
      rintro ⟨hnone, -⟩
      rw [hnew] at hnone
      cases hnone
  | replace new memory =>
    obtain ⟨hret, hh', hfind⟩ := hashReplace_spec hless hhash hh new memory
    simp only [hF] at hret hfind
    exact ⟨hret, hh', hfind⟩
  | find e => exact ⟨hF e, hh, hF⟩
  | delete e memory =>
    obtain ⟨hret, hh', hfind⟩ := hashDelete_spec hless hhash hh e memory
    simp only [hF] at hret hfind
    exact ⟨hret, hh', hfind⟩
  | clear => exact ⟨rfl, hashed_hashClear hh, fun _ => rfl⟩

/-- **Calls.** -/
theorem hashCalls_look {F : α → Option α} (hh : Hashed hash less h)
    (hF : ∀ e, hashFind hash less h e = F e) (cs : List (HashCall α)) :
    (hashCalls hash less h cs).1 = (lookCalls less F cs).1 ∧
      Hashed hash less (hashCalls hash less h cs).2 ∧
      ∀ e, hashFind hash less (hashCalls hash less h cs).2 e = (lookCalls less F cs).2 e := by
  induction cs generalizing h F with
  | nil => exact ⟨rfl, hh, hF⟩
  | cons c cs ih =>
    obtain ⟨hret, hh', hF'⟩ := c.perform_look hless hhash hh hF
    obtain ⟨hrets, hh'', hF''⟩ := ih hh' hF'
    exact ⟨congrArg₂ List.cons hret hrets, hh'', hF''⟩

end Call

/-! ### The load -/

section Load

variable {α : Type} {hash : α → UInt32} {less : α → α → Bool}

/-- Less than four elements a bucket. -/
def Hash.Light (h : Hash α) : Prop := h.elemCnt < 4 * h.bucketCnt

theorem light_rehash (h : Hash α) {memory : Bool} (hmemory : memory = true) :
    (rehash hash h memory).Light := by
  obtain ⟨-, hlight⟩ := newBucketCnt_spec h.elemCnt
  unfold rehash Hash.Light
  dsimp only
  split_ifs with hsame
  · rw [← hsame]
    exact hlight
  · exact hlight

/-- With memory for every call there are less than four elements a bucket. -/
theorem light_hashCalls [DecidableEq α] {h : Hash α} (hlight : h.Light) {cs : List (HashCall α)}
    (hmemory : ∀ c ∈ cs, c.HasMemory) : (hashCalls hash less h cs).2.Light := by
  induction cs generalizing h with
  | nil => exact hlight
  | cons c cs ih =>
    refine ih ?_ fun d hd => hmemory d (List.mem_cons_of_mem c hd)
    have hc := hmemory c List.mem_cons_self
    cases c with
    | insert new memory => exact light_rehash _ hc
    | replace new memory => exact light_rehash _ hc
    | find e => exact hlight
    | delete e memory =>
      unfold HashCall.perform hashDelete
      dsimp only
      split
      · exact hlight
      · exact light_rehash _ hc
    | clear =>
      have hpos : 0 < 4 * h.bucketCnt := Nat.zero_lt_of_lt hlight
      exact hpos

end Load

/-! ### Iterators -/

section Iterate

variable {α : Type} {h : Hash α}

/-- The elements from the place of an iterator on. -/
def HashIterator.rest (h : Hash α) (i : HashIterator) : List α :=
  (h.buckets i.bucket).drop (i.place - 1) ++
    (List.range' (i.bucket + 1) (h.bucketCnt - (i.bucket + 1))).flatMap h.buckets

/-- The place is after the head of a bucket and not after its tail. -/
structure HashIterator.In (h : Hash α) (i : HashIterator) : Prop where
  bucket : i.bucket < h.bucketCnt
  pos : 1 ≤ i.place
  le : i.place ≤ (h.buckets i.bucket).length + 1

/-- The loop goes to the next element that there is. -/
theorem skipBuckets_spec (turns : ℕ) {i : HashIterator} (hi : i.In h)
    (hturns : h.bucketCnt ≤ i.bucket + turns) :
    (skipBuckets h turns i = none ∧ i.rest h = []) ∨
      ∃ i', skipBuckets h turns i = some i' ∧ i'.In h ∧
        i'.place ≤ (h.buckets i'.bucket).length ∧ i'.rest h = i.rest h := by
  induction turns generalizing i with
  | zero => exact absurd hi.bucket (Nat.not_lt.2 hturns)
  | succ turns ih =>
    rw [skipBuckets]
    by_cases hend : i.place = (h.buckets i.bucket).length + 1
    · have hdrop : (h.buckets i.bucket).drop (i.place - 1) = [] :=
        List.drop_eq_nil_of_le (by omega)
      rw [if_pos hend]
      by_cases hlast : h.bucketCnt ≤ i.bucket + 1
      · rw [if_pos hlast]
        refine .inl ⟨rfl, ?_⟩
        rw [HashIterator.rest, hdrop, Nat.sub_eq_zero_of_le hlast]
        rfl
      · rw [if_neg hlast]
        have hnext : HashIterator.rest h ⟨i.bucket + 1, 1⟩ = i.rest h := by
          obtain ⟨k, hk⟩ := Nat.exists_eq_add_of_lt (Nat.not_le.1 hlast)
          rw [HashIterator.rest, HashIterator.rest, hdrop]
          dsimp only
          rw [Nat.sub_self, List.drop_zero, List.nil_append,
            show h.bucketCnt - (i.bucket + 1) = (h.bucketCnt - (i.bucket + 1 + 1)) + 1 by omega,
            List.range'_succ, List.flatMap_cons]
        rw [← hnext]
        exact ih ⟨Nat.not_le.1 hlast, Nat.le_refl 1, Nat.le_add_left 1 _⟩ (by dsimp only; omega)
    · rw [if_neg hend]
      have hle := hi.le
      exact .inr ⟨i, rfl, hi, by omega, rfl⟩

/-- **`hash_next`** returns the next element, or the null pointer after the last. -/
theorem hashNext_spec {i : HashIterator} (hi : HashIterator.In h ⟨i.bucket, i.place + 1⟩) :
    (hashNext h i = none ∧ HashIterator.rest h ⟨i.bucket, i.place + 1⟩ = []) ∨
      ∃ e i', hashNext h i = some (e, i') ∧ HashIterator.In h ⟨i'.bucket, i'.place + 1⟩ ∧
        HashIterator.rest h ⟨i.bucket, i.place + 1⟩ =
          e :: HashIterator.rest h ⟨i'.bucket, i'.place + 1⟩ := by
  unfold hashNext
  rcases skipBuckets_spec h.bucketCnt hi (Nat.le_add_left _ _) with ⟨hnone, hrest⟩ |
    ⟨i', hsome, hi', hle, hrest⟩
  · rw [hnone]
    exact .inl ⟨rfl, hrest⟩
  · have hpos := hi'.pos
    have hlt : i'.place - 1 < (h.buckets i'.bucket).length := by omega
    refine .inr ⟨(h.buckets i'.bucket)[i'.place - 1], i', ?_,
      ⟨hi'.bucket, Nat.le_add_left 1 _, Nat.succ_le_succ hle⟩, ?_⟩
    · rw [hsome]
      change ((h.buckets i'.bucket)[i'.place - 1]?).bind _ = _
      rw [List.getElem?_eq_getElem hlt]
      rfl
    · rw [← hrest, HashIterator.rest, HashIterator.rest, List.drop_eq_getElem_cons hlt,
        Nat.add_sub_cancel, Nat.sub_add_cancel hpos, List.cons_append]

theorem iterate_eq (turns : ℕ) {i : HashIterator} (hi : HashIterator.In h ⟨i.bucket, i.place + 1⟩)
    (hturns : (HashIterator.rest h ⟨i.bucket, i.place + 1⟩).length < turns) :
    iterate h turns i = HashIterator.rest h ⟨i.bucket, i.place + 1⟩ := by
  induction turns generalizing i with
  | zero => exact absurd hturns (Nat.not_lt_zero _)
  | succ turns ih =>
    rw [iterate]
    rcases hashNext_spec hi with ⟨hnone, hrest⟩ | ⟨e, i', hsome, hi', hrest⟩
    · rw [hnone, hrest]
    · rw [hrest, List.length_cons] at hturns
      rw [hsome, hrest]
      dsimp only
      rw [ih hi' (by omega)]

/-- **An iterator** comes to every element once, in the order of the buckets. -/
theorem iterate_first (hpos : 0 < h.bucketCnt) (hcount : h.elemCnt = h.elems.length) :
    iterate h (h.elemCnt + 1) hashFirst = h.elems := by
  have hrest : HashIterator.rest h ⟨0, 1⟩ = h.elems := by
    obtain ⟨n, hn⟩ := Nat.exists_eq_succ_of_ne_zero hpos.ne'
    rw [HashIterator.rest, Hash.elems, inBuckets, hn, List.range_eq_range', List.range'_succ,
      List.flatMap_cons]
    rfl
  refine (iterate_eq _ ⟨hpos, Nat.le_refl 1, Nat.le_add_left 1 _⟩ ?_).trans hrest
  change (HashIterator.rest h ⟨0, 1⟩).length < _
  rw [hrest, hcount]
  exact Nat.lt_succ_self _

end Iterate

/-- **A hash table is a finite map**, over any calls and whether or not there is memory when it would
grow or shrink: they return what a map returns that has one element for each of its equals; the
table is found to hold what the map holds; `elem_cnt` counts it; an iterator comes to each element
once, and to no other; the number of buckets is a power of two; and with memory there are less than
four elements a bucket. -/
theorem hash_refines {α : Type} [DecidableEq α] {hash : α → UInt32} {less : α → α → Bool}
    (hless : StrictWeak less) (hhash : ∀ a b, Same less a b → hash a = hash b)
    (cs : List (HashCall α)) :
    (hashCalls hash less hashInit cs).1 = (lookCalls less (fun _ => none) cs).1 ∧
      ∃ h F, (hashCalls hash less hashInit cs).2 = h ∧ (lookCalls less (fun _ => none) cs).2 = F ∧
        (∀ e, hashFind hash less h e = F e) ∧
        (∀ x, x ∈ iterate h (h.elemCnt + 1) hashFirst ↔ F x = some x) ∧
        (iterate h (h.elemCnt + 1) hashFirst).Pairwise (fun a b => ¬Same less a b) ∧
        h.elemCnt = (iterate h (h.elemCnt + 1) hashFirst).length ∧
        (∃ k, h.bucketCnt = 2 ^ k) ∧ ((∀ c ∈ cs, c.HasMemory) → h.elemCnt < 4 * h.bucketCnt) := by
  obtain ⟨hrets, hh, hfind⟩ :=
    hashCalls_look hless hhash hashed_hashInit (F := fun _ => none) (fun _ => rfl) cs
  refine ⟨hrets, _, _, rfl, rfl, hfind, fun x => ?_, ?_, ?_, hh.pow, fun hmemory => ?_⟩
  · rw [iterate_first hh.pos hh.count, ← hfind, hh.find_iff hless hhash]
    exact (and_iff_left (same_refl hless x)).symm
  · rw [iterate_first hh.pos hh.count]
    exact hh.apart
  · rw [iterate_first hh.pos hh.count]
    exact hh.count
  · have hlight : (hashInit : Hash α).Light := by
      change 0 < 16
      decide
    exact light_hashCalls hlight hmemory

/-- Twenty pairs and what follows; two pairs are equal if their first parts are. -/
def pairCalls : List (HashCall (ℕ × ℕ)) :=
  (List.range 20).map (fun k => .insert (k, 0) true) ++
    [.insert (1, 1) true, .replace (7, 2) true, .delete (5, 9) true, .find (7, 7), .find (5, 0)]

/-- **Rehashed**: nineteen pairs are left, and more buckets than the four of `hash_init`. -/
theorem hash_refines_pairs :
    let r := hashCalls (fun p : ℕ × ℕ => UInt32.ofNat p.1) (fun p q => decide (p.1 < q.1)) hashInit
      pairCalls
    r.1 = List.replicate 20 none ++ [some (1, 0), some (7, 0), some (5, 0), some (7, 2), none] ∧
      r.2.elemCnt = 19 ∧ 4 < r.2.bucketCnt := by
  have hless : StrictWeak fun p q : ℕ × ℕ => decide (p.1 < q.1) :=
    ⟨fun p q h => by simp_all; omega, fun p q r h h' => by simp_all; omega⟩
  have hhash : ∀ p q : ℕ × ℕ, Same (fun p q => decide (p.1 < q.1)) p q →
      UInt32.ofNat p.1 = UInt32.ofNat q.1 := fun p q h =>
    congrArg UInt32.ofNat (by simp [Same] at h; omega)
  obtain ⟨hanswers, h, F, hr, -, -, -, -, -, -, hfew⟩ := hash_refines hless hhash pairCalls
  have hcount : (hashCalls (fun p : ℕ × ℕ => UInt32.ofNat p.1) (fun p q => decide (p.1 < q.1))
      hashInit pairCalls).2.elemCnt = 19 := by decide +kernel
  refine ⟨hanswers.trans (by decide +kernel), hcount, ?_⟩
  have hlight := hfew fun c hc => by
    rcases List.mem_append.1 hc with hc | hc
    · obtain ⟨k, -, rfl⟩ := List.mem_map.1 hc
      rfl
    · simp only [List.mem_cons, List.not_mem_nil, or_false] at hc
      rcases hc with rfl | rfl | rfl | rfl | rfl <;> trivial
  rw [← hr, hcount] at hlight
  show 4 < _
  omega

end Lib
end CS162

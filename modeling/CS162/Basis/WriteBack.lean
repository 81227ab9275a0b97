/-
# Write-back caching over a backing store

A cache is a family of lines over a backing store `K → V`.  A valid line holds
one key's value; a dirty line may be newer than the store.  `Coherent` relates
lines and store to the content `ideal : K → V` they stand for: no two valid
lines hold one key, a valid line holds the ideal value, a clean one agrees with
the store, and a key no line holds is up to date in the store.

Each operation of a write-back cache is one rule here: recycling a line for a
key no line holds (with the write-back of what it held), writing to a line,
dropping a clean line, and flushing one line.  A key's content is then its
line's value if there is one and the store's otherwise (`Coherent.cached_eq`,
`Coherent.uncached`), and after every line was flushed the store alone is the
content (`Coherent.store_eq_of_clean`).
-/

import Mathlib.Logic.Function.Basic
import Mathlib.Tactic.SplitIfs

namespace CS162
namespace Basis

/-- One line of a cache: a key, whether the line is in use, whether it is newer
than the store, and the value held for the key. -/
@[ext] structure Line (K V : Type) where
  key : K
  valid : Bool
  dirty : Bool
  data : V

namespace Line

variable {K V : Type}

/-- The line holds a value for `k`. -/
def Holds (l : Line K V) (k : K) : Prop := l.valid = true ∧ l.key = k

/-- The line has to be written to the store before it may be reused. -/
def mustFlush (l : Line K V) : Bool := l.valid && l.dirty

/-- A line replaced by one of the same key and validity holds what it held. -/
theorem holds_update {ι : Type} [DecidableEq ι] {lines : ι → Line K V} {i : ι} {l : Line K V}
    (hv : l.valid = (lines i).valid) (hk : l.key = (lines i).key) (j : ι) (k : K) :
    (Function.update lines i l j).Holds k ↔ (lines j).Holds k := by
  by_cases hji : j = i
  · subst hji
    rw [Function.update_self, Holds, Holds, hv, hk]
  · rw [Function.update_of_ne hji]

end Line

variable {ι K V : Type} {lines : ι → Line K V} {store ideal : K → V}

/-- The lines and the store together hold the content `ideal`. -/
structure Coherent (lines : ι → Line K V) (store ideal : K → V) : Prop where
  unique : ∀ i j k, (lines i).Holds k → (lines j).Holds k → i = j
  cached : ∀ i, (lines i).valid = true → (lines i).data = ideal (lines i).key
  clean : ∀ i, (lines i).valid = true → (lines i).dirty = false →
    store (lines i).key = ideal (lines i).key
  uncached : ∀ k, (∀ i, ¬(lines i).Holds k) → store k = ideal k

namespace Coherent

/-- A cache of invalid lines stands for the store's own content. -/
theorem init (h : ∀ i, (lines i).valid = false) : Coherent lines store store where
  unique i _ _ hi := by simp [Line.Holds, h i] at hi
  cached i hi := by simp [h i] at hi
  clean _ _ _ := rfl
  uncached _ _ := rfl

theorem cached_eq (h : Coherent lines store ideal) {i : ι} {k : K} (hi : (lines i).Holds k) :
    (lines i).data = ideal k :=
  hi.2 ▸ h.cached i hi.1

/-- **Once every line is clean the store is the content.** -/
theorem store_eq_of_clean (h : Coherent lines store ideal)
    (hc : ∀ i, (lines i).mustFlush = false) : store = ideal := by
  funext k
  by_cases hk : ∃ i, (lines i).Holds k
  · obtain ⟨i, hv, rfl⟩ := hk
    have hd : (lines i).dirty = false := by simpa [Line.mustFlush, hv] using hc i
    exact h.clean i hv hd
  · exact h.uncached k fun i hi => hk ⟨i, hi⟩

variable [DecidableEq ι]

/-- A line whose value the store has may be dropped. -/
theorem drop (h : Coherent lines store ideal) {i : ι} (hi : (lines i).mustFlush = false)
    {l : Line K V} (hl : l.valid = false) : Coherent (Function.update lines i l) store ideal := by
  have hne : ∀ j k, (Function.update lines i l j).Holds k → j ≠ i ∧ (lines j).Holds k := by
    intro j k hj
    by_cases hji : j = i
    · subst hji
      simp [Line.Holds, hl] at hj
    · exact ⟨hji, by simpa [hji] using hj⟩
  refine ⟨fun j j' k hj hj' => h.unique j j' k (hne j k hj).2 (hne j' k hj').2, ?_, ?_, ?_⟩
  · intro j hj
    obtain ⟨hji, hj'⟩ := hne j _ ⟨hj, rfl⟩
    simpa [hji] using h.cached j (by simpa [hji] using hj)
  · intro j hj hd
    obtain ⟨hji, hj'⟩ := hne j _ ⟨hj, rfl⟩
    simpa [hji] using h.clean j (by simpa [hji] using hj) (by simpa [hji] using hd)
  · intro k hk
    by_cases hik : (lines i).Holds k
    · obtain ⟨hv, rfl⟩ := hik
      exact h.clean i hv (by simpa [Line.mustFlush, hv] using hi)
    · refine h.uncached k fun j hj => ?_
      by_cases hji : j = i
      · exact hik (hji ▸ hj)
      · exact hk j (by simpa [hji] using hj)

/-- **Filling an invalid line** with the store's value of a key no line holds. -/
theorem fill (h : Coherent lines store ideal) {i : ι} {k : K} (hk : ∀ j, ¬(lines j).Holds k)
    (hi : (lines i).valid = false) {l : Line K V} (hl : l.Holds k) (hd : l.data = store k) :
    Coherent (Function.update lines i l) store ideal := by
  obtain ⟨hv, rfl⟩ := hl
  have hst : store l.key = ideal l.key := h.uncached _ hk
  have hne : ∀ j, j ≠ i → ∀ k', (Function.update lines i l j).Holds k' ↔ (lines j).Holds k' :=
    fun j hji k' => by rw [Function.update_of_ne hji]
  refine ⟨?_, ?_, ?_, ?_⟩
  · intro j j' k' hj hj'
    by_cases hji : j = i <;> by_cases hji' : j' = i
    · exact hji.trans hji'.symm
    · subst hji
      have : l.key = k' := by simpa [Line.Holds, hv] using hj
      exact absurd ((hne j' hji' k').1 hj') (this ▸ hk j')
    · subst hji'
      have : l.key = k' := by simpa [Line.Holds, hv] using hj'
      exact absurd ((hne j hji k').1 hj) (this ▸ hk j)
    · exact h.unique j j' k' ((hne j hji k').1 hj) ((hne j' hji' k').1 hj')
  · intro j hj
    by_cases hji : j = i
    · subst hji
      simpa [hd] using hst
    · simpa [hji] using h.cached j (by simpa [hji] using hj)
  · intro j hj hdj
    by_cases hji : j = i
    · subst hji
      simpa using hst
    · simpa [hji] using h.clean j (by simpa [hji] using hj) (by simpa [hji] using hdj)
  · intro k' hk'
    refine h.uncached k' fun j hj => ?_
    by_cases hji : j = i
    · subst hji
      simp [Line.Holds, hi] at hj
    · exact hk' j ((hne j hji k').2 hj)

variable [DecidableEq K]

/-- The store after writing back the line `l` if it must be. -/
def writeBack (store : K → V) (l : Line K V) : K → V :=
  if l.mustFlush = true then Function.update store l.key l.data else store

/-- **Flushing a line** writes it to the store and leaves it clean. -/
theorem flush (h : Coherent lines store ideal) (i : ι) :
    Coherent (Function.update lines i { lines i with dirty := false })
      (writeBack store (lines i)) ideal := by
  have hh : ∀ j k, (Function.update lines i { lines i with dirty := false } j).Holds k ↔
      (lines j).Holds k := Line.holds_update rfl rfl
  have hst : ∀ k, store k = ideal k → writeBack store (lines i) k = ideal k := by
    intro k hk
    unfold writeBack
    split_ifs with hf
    · by_cases hki : k = (lines i).key
      · subst hki
        have hv : (lines i).valid = true := by
          rw [Line.mustFlush, Bool.and_eq_true] at hf
          exact hf.1
        simpa using h.cached i hv
      · simpa [hki] using hk
    · exact hk
  refine ⟨fun j j' k hj hj' => h.unique j j' k ((hh j k).1 hj) ((hh j' k).1 hj'), ?_, ?_, ?_⟩
  · intro j hj
    by_cases hji : j = i
    · subst hji
      simpa using h.cached j (by simpa using hj)
    · simpa [hji] using h.cached j (by simpa [hji] using hj)
  · intro j hj hd
    by_cases hji : j = i
    · subst hji
      have hv : (lines j).valid = true := by simpa using hj
      by_cases hdj : (lines j).dirty = true
      · simpa [writeBack, Line.mustFlush, hv, hdj] using h.cached j hv
      · simpa using hst _ (h.clean j hv (by simpa using hdj))
    · have hc := hst _ (h.clean j (by simpa [hji] using hj) (by simpa [hji] using hd))
      simpa [hji] using hc
  · intro k hk
    exact hst k (h.uncached k fun j hj => hk j ((hh j k).2 hj))

/-- **Writing to a line** changes the content of its key and of no other. -/
theorem write (h : Coherent lines store ideal) {i : ι} {k : K} (hi : (lines i).Holds k) (v : V) :
    Coherent (Function.update lines i { lines i with dirty := true, data := v }) store
      (Function.update ideal k v) := by
  obtain ⟨hv, rfl⟩ := hi
  have hh : ∀ j k, (Function.update lines i { lines i with dirty := true, data := v } j).Holds k ↔
      (lines j).Holds k := Line.holds_update rfl rfl
  have hkey : ∀ j, j ≠ i → (lines j).valid = true → (lines j).key ≠ (lines i).key :=
    fun j hji hj he => hji (h.unique j i _ ⟨hj, he⟩ ⟨hv, rfl⟩)
  refine ⟨fun j j' k hj hj' => h.unique j j' k ((hh j k).1 hj) ((hh j' k).1 hj'), ?_, ?_, ?_⟩
  · intro j hj
    by_cases hji : j = i
    · subst hji
      simp
    · have hj' : (lines j).valid = true := by simpa [hji] using hj
      simpa [hji, hkey j hji hj'] using h.cached j hj'
  · intro j hj hd
    by_cases hji : j = i
    · subst hji
      simp at hd
    · have hj' : (lines j).valid = true := by simpa [hji] using hj
      simpa [hji, hkey j hji hj'] using h.clean j hj' (by simpa [hji] using hd)
  · intro k hk
    have hki : k ≠ (lines i).key := fun he => hk i ((hh i k).2 ⟨hv, he.symm⟩)
    rw [Function.update_of_ne hki]
    exact h.uncached k fun j hj => hk j ((hh j k).2 hj)

/-- **Recycling a line**: write it back if it must be, then fill it with the
store's value of a key no line held. -/
theorem recycle (h : Coherent lines store ideal) (i : ι) {k : K} (hk : ∀ j, ¬(lines j).Holds k)
    {l : Line K V} (hl : l.Holds k) (hd : l.data = writeBack store (lines i) k) :
    Coherent (Function.update lines i l) (writeBack store (lines i)) ideal := by
  have hclean : ({ lines i with dirty := false } : Line K V).mustFlush = false := by
    simp [Line.mustFlush]
  have hdrop := (h.flush i).drop (i := i) (by simpa using hclean)
    (l := { lines i with valid := false }) rfl
  rw [Function.update_idem] at hdrop
  have hfill := hdrop.fill (i := i) (k := k) (fun j => ?_) (by simp) hl hd
  · rwa [Function.update_idem] at hfill
  · by_cases hji : j = i
    · subst hji
      simp [Line.Holds]
    · simpa [hji] using hk j

end Coherent

end Basis
end CS162

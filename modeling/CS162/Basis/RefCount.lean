/-
# Reference counts

A table of shared cells: a list of the cells in use, each with a key and a count,
and the handles given out for them.  `Counted` says that the table and the handles
agree: no key has two cells in use, a cell is in use exactly as long as there is a
handle on it, and its count is the number of these handles.  It is kept by taking a
new cell into use (`Counted.insert`), by another handle on a cell
(`Counted.reopen`), by giving up a handle (`Counted.drop`) and by giving up the
last one together with the cell (`Counted.last`).
-/

import Mathlib.Data.List.Basic
import Mathlib.Data.List.Perm.Basic
import Mathlib.Algebra.Group.Int.Defs
import Mathlib.Tactic.Common

namespace CS162
namespace Basis

/-- A handle: the address of a cell and the key it was asked for. -/
structure Handle (ι κ : Type) where
  ptr : ι
  key : κ
deriving DecidableEq

variable {ι κ : Type} [DecidableEq ι] {listed : List ι}
  {cell cell' : ι → Option (κ × ℤ)} {handles : List (Handle ι κ)} {p : ι} {k : κ} {n : ℤ}

/-- The number of handles on the cell at `p`. -/
def refs (handles : List (Handle ι κ)) (p : ι) : ℕ := handles.countP fun h => h.ptr = p

theorem refs_cons (h : Handle ι κ) (p : ι) :
    refs (h :: handles) p = refs handles p + if h.ptr = p then 1 else 0 := by
  unfold refs
  rw [List.countP_cons]
  simp

theorem refs_erase [DecidableEq κ] {h : Handle ι κ} (hmem : h ∈ handles) (p : ι) :
    refs handles p = refs (handles.erase h) p + if h.ptr = p then 1 else 0 := by
  rw [← refs_cons]
  exact (List.perm_cons_erase hmem).countP_eq _

theorem refs_pos : 0 < refs handles p ↔ ∃ h ∈ handles, h.ptr = p := by
  unfold refs
  rw [List.countP_pos_iff]
  simp

/-- A count after one element has come to be counted or not. -/
theorem countP_change {α : Type} [DecidableEq α] {f g : α → Bool} {l : List α} {x : α}
    (hx : x ∈ l) (hnodup : l.Nodup) (hsame : ∀ y ∈ l, y ≠ x → f y = g y) :
    l.countP f + (if g x then 1 else 0) = l.countP g + if f x then 1 else 0 := by
  have hperm := List.perm_cons_erase hx
  have hrest : (l.erase x).countP f = (l.erase x).countP g := by
    refine List.countP_congr fun y hy => ?_
    obtain ⟨hne, hmem⟩ := hnodup.mem_erase_iff.1 hy
    rw [hsame y hmem hne]
  rw [hperm.countP_eq f, hperm.countP_eq g, List.countP_cons, List.countP_cons, hrest]
  omega

/-- The cells in use and the handles agree. -/
structure Counted (listed : List ι) (cell : ι → Option (κ × ℤ)) (handles : List (Handle ι κ)) :
    Prop where
  nodup : listed.Nodup
  counts : ∀ p ∈ listed, ∃ k, cell p = some (k, (refs handles p : ℤ))
  held : ∀ p ∈ listed, 0 < refs handles p
  handle : ∀ h ∈ handles, h.ptr ∈ listed ∧ ∃ n, cell h.ptr = some (h.key, n)
  unique : ∀ p ∈ listed, ∀ q ∈ listed, ∀ k m n, cell p = some (k, m) → cell q = some (k, n) → p = q

theorem counted_nil (cell : ι → Option (κ × ℤ)) : Counted [] cell [] where
  nodup := List.nodup_nil
  counts _ hp := absurd hp List.not_mem_nil
  held _ hp := absurd hp List.not_mem_nil
  handle _ hh := absurd hh List.not_mem_nil
  unique _ hp := absurd hp List.not_mem_nil

namespace Counted

section

variable (h : Counted listed cell handles)
include h

/-- The order of the handles does not matter. -/
theorem perm (hperm : handles.Perm handles') : Counted listed cell handles' := by
  have hrefs : ∀ p, refs handles p = refs handles' p := fun p => hperm.countP_eq _
  constructor
  · exact h.nodup
  · intro p hp
    rw [← hrefs]
    exact h.counts p hp
  · intro p hp
    rw [← hrefs]
    exact h.held p hp
  · exact fun g hg => h.handle g (hperm.mem_iff.2 hg)
  · exact h.unique

theorem congr (hcell : ∀ p ∈ listed, cell' p = cell p) : Counted listed cell' handles where
  nodup := h.nodup
  counts p hp := by
    rw [hcell p hp]
    exact h.counts p hp
  held := h.held
  handle g hg := by
    rw [hcell _ (h.handle g hg).1]
    exact h.handle g hg
  unique p hp q hq := by
    rw [hcell p hp, hcell q hq]
    exact h.unique p hp q hq

/-- Two handles for one key are on one cell. -/
theorem share {g g' : Handle ι κ} (hg : g ∈ handles) (hg' : g' ∈ handles) (hkey : g.key = g'.key) :
    g.ptr = g'.ptr := by
  obtain ⟨hmem, m, hm⟩ := h.handle g hg
  obtain ⟨hmem', n, hn⟩ := h.handle g' hg'
  rw [← hkey] at hn
  exact h.unique _ hmem _ hmem' _ _ _ hm hn

/-- The handles on a cell are those for its key. -/
theorem key_iff {g : Handle ι κ} (hg : g ∈ handles) (hp : p ∈ listed) (hcell : cell p = some (k, n)) :
    g.ptr = p ↔ g.key = k := by
  obtain ⟨hmem, m, hm⟩ := h.handle g hg
  constructor
  · rintro rfl
    rw [hm] at hcell
    exact (Prod.mk.inj (Option.some.inj hcell)).1
  · rintro rfl
    exact h.unique _ hmem _ hp _ _ _ hm hcell

/-- The count of a cell is the number of handles for its key. -/
theorem count_key [DecidableEq κ] (hp : p ∈ listed) (hcell : cell p = some (k, n)) :
    n = handles.countP fun g => g.key = k := by
  obtain ⟨k', hk'⟩ := h.counts p hp
  rw [hcell] at hk'
  rw [(Prod.mk.inj (Option.some.inj hk')).2, refs]
  congr 1
  refine List.countP_congr fun g hg => ?_
  rw [decide_eq_true_iff, decide_eq_true_iff]
  exact h.key_iff hg hp hcell

/-- A key has a cell in use exactly when there is a handle for it. -/
theorem exists_iff (k : κ) :
    (∃ p ∈ listed, ∃ n, cell p = some (k, n)) ↔ ∃ g ∈ handles, g.key = k := by
  constructor
  · rintro ⟨p, hp, n, hcell⟩
    obtain ⟨g, hg, hptr⟩ := refs_pos.1 (h.held p hp)
    exact ⟨g, hg, (h.key_iff hg hp hcell).1 hptr⟩
  · rintro ⟨g, hg, rfl⟩
    obtain ⟨hmem, n, hn⟩ := h.handle g hg
    exact ⟨g.ptr, hmem, n, hn⟩

/-- A cell that is not in use has no handle. -/
theorem refs_eq_zero (hp : p ∉ listed) : refs handles p = 0 := by
  by_contra hne
  obtain ⟨g, hg, rfl⟩ := refs_pos.1 (Nat.pos_of_ne_zero hne)
  exact hp (h.handle g hg).1

/-- **A new cell is taken into use** for a key that has none. -/
theorem insert (hp : p ∉ listed) (hkey : ∀ q ∈ listed, ∀ n, cell q ≠ some (k, n))
    (hnew : cell' p = some (k, 1)) (hold : ∀ q ∈ listed, cell' q = cell q) :
    Counted (p :: listed) cell' (⟨p, k⟩ :: handles) := by
  have hzero := h.refs_eq_zero hp
  have hne : ∀ q ∈ listed, p ≠ q := fun q hq he => hp (he ▸ hq)
  refine ⟨List.nodup_cons.2 ⟨hp, h.nodup⟩, fun q hq => ?_, fun q hq => ?_, fun g hg => ?_, ?_⟩
  · rw [refs_cons]
    rcases List.mem_cons.1 hq with rfl | hq
    · exact ⟨k, by rw [hnew, hzero, if_pos rfl]; rfl⟩
    · rw [hold q hq, if_neg (hne q hq)]
      exact h.counts q hq
  · rw [refs_cons]
    rcases List.mem_cons.1 hq with rfl | hq
    · rw [if_pos rfl]
      omega
    · exact Nat.add_pos_left (h.held q hq) _
  · rcases List.mem_cons.1 hg with rfl | hg
    · exact ⟨List.mem_cons_self, 1, hnew⟩
    · obtain ⟨hmem, n, hn⟩ := h.handle g hg
      exact ⟨List.mem_cons_of_mem p hmem, n, by rw [hold _ hmem, hn]⟩
  · intro q hq r hr l m n hm hn
    rcases List.mem_cons.1 hq with rfl | hq' <;> rcases List.mem_cons.1 hr with rfl | hr'
    · rfl
    · rw [hnew] at hm
      rw [hold r hr', ← (Prod.mk.inj (Option.some.inj hm)).1] at hn
      exact absurd hn (hkey r hr' n)
    · rw [hnew] at hn
      rw [hold q hq', ← (Prod.mk.inj (Option.some.inj hn)).1] at hm
      exact absurd hm (hkey q hq' m)
    · rw [hold q hq'] at hm
      rw [hold r hr'] at hn
      exact h.unique q hq' r hr' l m n hm hn

end

/-- The keys of the cells stay while a count changes. -/
theorem recount {handles' : List (Handle ι κ)} (h : Counted listed cell handles)
    (hp : p ∈ listed) (hcell : cell p = some (k, n)) (hnew : cell' p = some (k, (refs handles' p : ℤ)))
    (hold : ∀ q ∈ listed, q ≠ p → cell' q = cell q) (hpos : 0 < refs handles' p)
    (hrefs : ∀ q ≠ p, refs handles' q = refs handles q)
    (hhandle : ∀ g ∈ handles', g ∈ handles ∨ g = ⟨p, k⟩) : Counted listed cell' handles' := by
  have hkeep : ∀ q ∈ listed, ∀ l, (∃ m, cell' q = some (l, m)) ↔ ∃ m, cell q = some (l, m) := by
    intro q hq l
    by_cases he : q = p
    · rw [he, hcell, hnew]
      simp
    · rw [hold q hq he]
  refine ⟨h.nodup, fun q hq => ?_, fun q hq => ?_, fun g hg => ?_, ?_⟩
  · by_cases he : q = p
    · exact ⟨k, he ▸ hnew⟩
    · rw [hold q hq he, hrefs q he]
      exact h.counts q hq
  · by_cases he : q = p
    · exact he ▸ hpos
    · rw [hrefs q he]
      exact h.held q hq
  · rcases hhandle g hg with hg | rfl
    · exact ⟨(h.handle g hg).1, (hkeep _ (h.handle g hg).1 _).2 (h.handle g hg).2⟩
    · exact ⟨hp, _, hnew⟩
  · intro q hq r hr l m n hm hn
    obtain ⟨m', hm'⟩ := (hkeep q hq l).1 ⟨m, hm⟩
    obtain ⟨n', hn'⟩ := (hkeep r hr l).1 ⟨n, hn⟩
    exact h.unique q hq r hr l m' n' hm' hn'

variable (h : Counted listed cell handles)
include h

/-- The count of a cell in use. -/
theorem count_eq (hp : p ∈ listed) (hcell : cell p = some (k, n)) : n = refs handles p := by
  obtain ⟨k', hk'⟩ := h.counts p hp
  rw [hcell] at hk'
  exact (Prod.mk.inj (Option.some.inj hk')).2

/-- **Another handle on a cell in use.** -/
theorem reopen (hp : p ∈ listed) (hcell : cell p = some (k, n))
    (hnew : cell' p = some (k, n + 1)) (hold : ∀ q ∈ listed, q ≠ p → cell' q = cell q) :
    Counted listed cell' (⟨p, k⟩ :: handles) := by
  refine h.recount hp hcell ?_ hold ?_ (fun q hq => ?_) fun g hg => ?_
  · rw [hnew, h.count_eq hp hcell, refs_cons, if_pos rfl]
    rfl
  · rw [refs_cons, if_pos rfl]
    omega
  · rw [refs_cons, if_neg hq.symm, Nat.add_zero]
  · exact (List.mem_cons.1 hg).symm

variable [DecidableEq κ] {g : Handle ι κ}

/-- **A handle is given up**, and it is not the last one on its cell. -/
theorem drop (hg : g ∈ handles) (hcell : cell g.ptr = some (k, n)) (hn : n ≠ 1)
    (hnew : cell' g.ptr = some (k, n - 1)) (hold : ∀ q ∈ listed, q ≠ g.ptr → cell' q = cell q) :
    Counted listed cell' (handles.erase g) := by
  have hp := (h.handle g hg).1
  have hcount := h.count_eq hp hcell
  have herase := refs_erase hg g.ptr
  rw [if_pos rfl] at herase
  refine h.recount hp hcell ?_ hold ?_ (fun q hq => ?_) fun g' hg' => ?_
  · rw [hnew]
    congr 2
    omega
  · omega
  · rw [refs_erase hg q, if_neg hq.symm, Nat.add_zero]
  · exact .inl (List.mem_of_mem_erase hg')

/-- **The last handle is given up**, and its cell goes out of use. -/
theorem last (hg : g ∈ handles) (hcell : cell g.ptr = some (k, 1))
    (hold : ∀ q ∈ listed, q ≠ g.ptr → cell' q = cell q) :
    Counted (listed.erase g.ptr) cell' (handles.erase g) := by
  have hp := (h.handle g hg).1
  have hcount := h.count_eq hp hcell
  have herase := refs_erase hg g.ptr
  rw [if_pos rfl] at herase
  have hmem : ∀ q, q ∈ listed.erase g.ptr ↔ q ≠ g.ptr ∧ q ∈ listed := fun q =>
    h.nodup.mem_erase_iff
  have hrefs : ∀ q ≠ g.ptr, refs (handles.erase g) q = refs handles q := by
    intro q hq
    rw [refs_erase hg q, if_neg hq.symm, Nat.add_zero]
  refine ⟨h.nodup.erase _, fun q hq => ?_, fun q hq => ?_, fun g' hg' => ?_, ?_⟩
  · obtain ⟨hne, hq⟩ := (hmem q).1 hq
    rw [hold q hq hne, hrefs q hne]
    exact h.counts q hq
  · obtain ⟨hne, hq⟩ := (hmem q).1 hq
    rw [hrefs q hne]
    exact h.held q hq
  · obtain ⟨hlisted, m, hm⟩ := h.handle g' (List.mem_of_mem_erase hg')
    have hne : g'.ptr ≠ g.ptr := by
      intro he
      have hpos : 0 < refs (handles.erase g) g.ptr := refs_pos.2 ⟨g', hg', he⟩
      omega
    exact ⟨(hmem _).2 ⟨hne, hlisted⟩, m, by rw [hold _ hlisted hne, hm]⟩
  · intro q hq r hr l m n hm hn
    obtain ⟨hneq, hq⟩ := (hmem q).1 hq
    obtain ⟨hner, hr⟩ := (hmem r).1 hr
    rw [hold q hq hneq] at hm
    rw [hold r hr hner] at hn
    exact h.unique q hq r hr l m n hm hn

end Counted

end Basis
end CS162

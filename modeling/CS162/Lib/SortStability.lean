/-
# Stability of `list_sort`

`projects1-3/src/lib/kernel/list.c`, lines 300-370.

`inplace_merge` puts an element of the second run before one of the first only if it is less,
so elements of which neither is less than the other keep their order (`listSort_stable`).  The
first element afterwards is the first of those that none is less than (`listSort_front`), and what
holds of each two of the sorted list can be read off the list before (`listSort_pairwise_iff`).
-/

import CS162.Lib.KernelList

namespace CS162
namespace Lib

variable {α : Type} {less : α → α → Bool}

/-- Neither is less than the other. -/
def equivalent (less : α → α → Bool) (c a : α) : Bool := !less c a && !less a c

theorem equivalent_iff {c a : α} :
    equivalent less c a = true ↔ less c a = false ∧ less a c = false := by
  rw [equivalent, Bool.and_eq_true, Bool.not_eq_true', Bool.not_eq_true']

/-- Of two elements one is before the other. -/
theorem sublist_or_sublist {l : List α} {a b : α} (ha : a ∈ l) (hb : b ∈ l) (hne : a ≠ b) :
    [a, b].Sublist l ∨ [b, a].Sublist l := by
  obtain ⟨before, behind, rfl⟩ := List.append_of_mem ha
  rcases List.mem_append.1 hb with hb | hb
  · right
    exact (List.singleton_sublist.2 hb).append (List.singleton_sublist.2 List.mem_cons_self)
  · left
    have hbehind : b ∈ behind := (List.mem_cons.1 hb).resolve_left (Ne.symm hne)
    exact List.sublist_append_of_sublist_right
      ((List.singleton_sublist.2 hbehind).cons_cons a)

/-- Of two elements that occur once, not both are before the other. -/
theorem not_sublist_of_nodup {l : List α} (h : l.Nodup) {a b : α} (hab : [a, b].Sublist l) :
    ¬[b, a].Sublist l := by
  intro hba
  induction l with
  | nil => cases hab
  | cons c l ih =>
    obtain ⟨hc, hl⟩ := List.nodup_cons.1 h
    cases hab with
    | cons _ hab =>
      cases hba with
      | cons _ hba => exact ih hl hab hba
      | cons_cons _ _ => exact hc (hab.subset (List.mem_cons_of_mem a List.mem_cons_self))
    | cons_cons _ hb =>
      cases hba with
      | cons _ hba => exact hc (hba.subset (List.mem_cons_of_mem b List.mem_cons_self))
      | cons_cons _ _ => exact hc (hb.subset List.mem_cons_self)

section Order

variable (hless : StrictWeak less)
include hless

theorem StrictWeak.irrefl (a : α) : less a a = false := by
  cases h : less a a with
  | true => exact h.symm.trans (hless.asymm a a h)
  | false => rfl

/-- In a sorted list that `c` is less than the first element of, nothing is
equivalent to `c`. -/
theorem filter_equivalent_of_less {c a : α} {run : List α} (hca : less c a = true)
    (hrun : Sorted less (a :: run)) : (a :: run).filter (equivalent less c) = [] := by
  refine List.filter_eq_nil_iff.2 fun b hb heq => ?_
  have hcb := (equivalent_iff.1 heq).1
  have hba : less b a = false := by
    rcases List.mem_cons.1 hb with rfl | hb
    · exact hless.irrefl b
    · exact (List.pairwise_cons.1 hrun).1 b hb
  have hle := hless.cotrans c b a hcb hba
  rw [hca] at hle
  cases hle

/-- `inplace_merge` keeps the elements equivalent to `c` in their order. -/
theorem inplaceMerge_filter (c : α) {run : List α} (hrun : Sorted less run) (l : List α) :
    (inplaceMerge less run l).filter (equivalent less c) =
      run.filter (equivalent less c) ++ l.filter (equivalent less c) := by
  induction run generalizing l with
  | nil => rfl
  | cons a run ih =>
    have hrest := ih (List.pairwise_cons.1 hrun).2
    rw [inplaceMerge]
    induction l with
    | nil =>
      rw [mergeBefore, List.filter_cons, List.filter_cons, hrest, List.filter_nil,
        List.append_nil, List.append_nil]
    | cons b l ihl =>
      rw [mergeBefore]
      cases hba : less b a with
      | false =>
        rw [if_neg Bool.false_ne_true, List.filter_cons, List.filter_cons, hrest]
        split
        · rfl
        · rfl
      | true =>
        rw [if_pos rfl, List.filter_cons, ihl, List.filter_cons (x := b)]
        cases hcb : equivalent less c b with
        | false => rfl
        | true =>
          -- nothing of the first run is equivalent to `c`
          have hca : less c a = true := by
            cases hca : less c a with
            | true => rfl
            | false =>
              have hle := hless.cotrans b c a (equivalent_iff.1 hcb).2 hca
              rw [hba] at hle
              cases hle
          rw [filter_equivalent_of_less hless hca hrun]
          rfl

theorem mergeRuns_filter (c : α) : ∀ rs : List (List α), (∀ run ∈ rs, Sorted less run) →
    (mergeRuns less rs).2.filter (equivalent less c) = rs.flatten.filter (equivalent less c)
  | [], _ => rfl
  | [run], _ => by rw [mergeRuns, List.flatten_singleton]
  | run :: run' :: rest, h => by
    have hrest := mergeRuns_filter c rest fun r hr =>
      h r (List.mem_cons_of_mem run (List.mem_cons_of_mem run' hr))
    have hmerge := inplaceMerge_filter hless c (h run List.mem_cons_self) run'
    rw [mergeRuns, List.flatten_cons, List.flatten_cons]
    dsimp only
    rw [List.filter_append, List.filter_append, List.filter_append, hmerge, hrest,
      List.append_assoc]

theorem sortPasses_filter (c : α) {fuel : ℕ} {l l' : List α}
    (h : sortPasses less fuel l = some l') :
    l'.filter (equivalent less c) = l.filter (equivalent less c) := by
  induction fuel generalizing l with
  | zero => cases h
  | succ fuel ih =>
    have hpass := mergeRuns_filter hless c (runs less l) fun run hrun =>
      sorted_of_mem_runs hless hrun
    rw [flatten_runs] at hpass
    rw [sortPasses] at h
    generalize mergeRuns less (runs less l) = pass at h hpass
    dsimp only at h
    split at h
    · exact (ih h).trans hpass
    · exact Option.some.inj h ▸ hpass

/-- **`list_sort` is stable**: elements that are equivalent keep their order. -/
theorem listSort_stable {l l' : List α} (h : listSort less l = some l') (c : α) :
    l'.filter (equivalent less c) = l.filter (equivalent less c) :=
  sortPasses_filter hless c h

/-- **The front of a sorted list** is the first element that none is less than. -/
theorem listSort_front {l rest : List α} {u : α} (h : listSort less l = some (u :: rest)) :
    ∃ before behind, l = before ++ u :: behind ∧ rest.Perm (before ++ behind) ∧
      (∀ w ∈ before, less u w = true) ∧ ∀ w ∈ behind, less w u = false := by
  obtain ⟨l', hl', hperm, hsorted⟩ := listSort_returns hless l
  obtain rfl := Option.some.inj (h.symm.trans hl')
  have hself : equivalent less u u = true := equivalent_iff.2 ⟨hless.irrefl u, hless.irrefl u⟩
  have hleast : ∀ w ∈ l, less w u = false := fun w hw => by
    rcases List.mem_cons.1 (hperm.symm.mem_iff.1 hw) with rfl | hw
    · exact hless.irrefl w
    · exact (List.pairwise_cons.1 hsorted).1 w hw
  have hstable := listSort_stable hless h u
  rw [List.filter_cons, if_pos hself] at hstable
  obtain ⟨before, behind, rfl, hbefore, -, -⟩ := List.filter_eq_cons_iff.1 hstable.symm
  refine ⟨before, behind, rfl, ?_, fun w hw => ?_, fun w hw => ?_⟩
  · exact (hperm.trans List.perm_middle).cons_inv
  · have hwu := hleast w (List.mem_append_left _ hw)
    cases huw : less u w with
    | true => rfl
    | false => exact absurd (equivalent_iff.2 ⟨huw, hwu⟩) (hbefore w hw)
  · exact hleast w (List.mem_append_right _ (List.mem_cons_of_mem u hw))

/-- An element is before those that it is less than. -/
theorem Sorted.before {l : List α} (h : Sorted less l) {a b : α} (ha : a ∈ l) (hb : b ∈ l)
    (hab : less a b = true) : [a, b].Sublist l := by
  have hne : a ≠ b := fun heq => by
    rw [heq, hless.irrefl b] at hab
    cases hab
  rcases sublist_or_sublist ha hb hne with hfirst | hsecond
  · exact hfirst
  · have hle := List.pairwise_iff_forall_sublist.1 h hsecond
    rw [hab] at hle
    cases hle

/-- Two elements in order stay so. -/
theorem listSort_sublist {l l' : List α} (h : listSort less l = some l') {a b : α}
    (hab : [a, b].Sublist l) (hle : less b a = false) : [a, b].Sublist l' := by
  obtain ⟨s, hs, hperm, hsorted⟩ := listSort_returns hless l
  obtain rfl := Option.some.inj (h.symm.trans hs)
  have ha := hperm.symm.subset (hab.subset List.mem_cons_self)
  have hb := hperm.symm.subset (hab.subset (List.mem_cons_of_mem a List.mem_cons_self))
  cases hlt : less a b with
  | true => exact Sorted.before hless hsorted ha hb hlt
  | false =>
    have hkept := hab.filter (equivalent less a)
    have hself : equivalent less a a = true :=
      equivalent_iff.2 ⟨hless.irrefl a, hless.irrefl a⟩
    have hother : equivalent less a b = true := equivalent_iff.2 ⟨hlt, hle⟩
    rw [List.filter_cons, if_pos hself, List.filter_cons, if_pos hother, List.filter_nil,
      ← listSort_stable hless h a] at hkept
    exact hkept.trans List.filter_sublist

/-- **What holds of each two elements of the sorted list**, said of the list before. -/
theorem listSort_pairwise_iff {l l' : List α} (h : listSort less l = some l') (hnodup : l.Nodup)
    {R : α → α → Prop} :
    l'.Pairwise R ↔ l.Pairwise fun a b => if less b a = true then R b a else R a b := by
  obtain ⟨s, hs, hperm, hsorted⟩ := listSort_returns hless l
  obtain rfl := Option.some.inj (h.symm.trans hs)
  rw [List.pairwise_iff_forall_sublist, List.pairwise_iff_forall_sublist]
  constructor
  · intro hR a b hab
    have ha := hperm.symm.subset (hab.subset List.mem_cons_self)
    have hb := hperm.symm.subset (hab.subset (List.mem_cons_of_mem a List.mem_cons_self))
    split
    · rename_i hba
      exact hR (Sorted.before hless hsorted hb ha hba)
    · rename_i hba
      exact hR (listSort_sublist hless h hab (by simpa using hba))
  · intro hR a b hab
    have ha := hperm.subset (hab.subset List.mem_cons_self)
    have hb := hperm.subset (hab.subset (List.mem_cons_of_mem a List.mem_cons_self))
    have hnodup' := hperm.symm.nodup hnodup
    have hne : a ≠ b := List.pairwise_iff_forall_sublist.1 hnodup' hab
    have hba := List.pairwise_iff_forall_sublist.1 hsorted hab
    rcases sublist_or_sublist ha hb hne with hfirst | hsecond
    · have hR' := hR hfirst
      rwa [hba, if_neg nofun] at hR'
    · have hR' := hR hsecond
      cases hlt : less a b with
      | true => rwa [hlt, if_pos rfl] at hR'
      | false => exact absurd hab (not_sublist_of_nodup hnodup' (listSort_sublist hless h hsecond hlt))

end Order

/-- A sorted list stays as it is. -/
theorem listSort_of_sorted {l : List α} (h : Sorted less l) : listSort less l = some l := by
  cases l with
  | nil => rfl
  | cons a l =>
    obtain ⟨run, rest, hruns⟩ := runs_cons less a l
    have hone := length_runs_of_sorted h
    have hflatten := flatten_runs less (a :: l)
    rw [hruns] at hone hflatten
    have hrest : rest = [] := List.length_eq_zero_iff.1 (by simpa using hone)
    rw [hrest, List.flatten_singleton] at hflatten
    unfold listSort sortPasses
    rw [hruns, hrest, mergeRuns, hflatten]
    rfl

end Lib
end CS162

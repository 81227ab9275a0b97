/-
# Splitting a path

`projects1-3/src/filesys/filesys.c`, lines 199-222: calls of `get_next_part`, each with the buffer
and the path that the one before left, as long as it returns `1`.

The parts are to be the maximal runs of bytes other than slashes, and a part too long for the
buffer is to end the calls with a negative result (`SplitsRight`).  The source returns `1` for such
a part too, and leaves the path where it was, so the next call finds the part again: the calls
never end (`Iterates.short`).
-/

import CS162.Basis.MaximalRuns
import CS162.Filesys.Chdir

namespace CS162
namespace Filesys

open CS162.Basis

/-- The `int` that `get_next_part` returns. -/
def partResult (more : Bool) : ℤ := if more then 1 else 0

/-- **Calls of `get_next_part` until it does not return `1`**: the buffers after the calls that
did, and what the last one returned. -/
inductive Iterates : List UInt8 → List UInt8 → List (List UInt8) → ℤ → Prop
  | stop {part path : List UInt8} (h : partResult (getNextPart part path).1 ≠ 1) :
      Iterates part path [] (partResult (getNextPart part path).1)
  | next {part path part' rest : List UInt8} {parts : List (List UInt8)} {r : ℤ}
      (h : getNextPart part path = (true, part', rest)) (more : Iterates part' rest parts r) :
      Iterates part path (part' :: parts) r

/-- The string of a buffer of `NAME_MAX + 1` bytes ends within it. -/
def Terminated (buffer : List UInt8) : Prop :=
  buffer.length = nameMax + 1 ∧ (0 : UInt8) ∈ buffer

/-- **The calls are right**: they end; the parts are the runs `ws` of the path, or those in front of
the first that is too long, and then the last result is negative. -/
def SplitsRight (part path : List UInt8) : Prop :=
  ∃ ws parts r, MaximalRuns (fun b : UInt8 => b != 47) path ws ∧ Iterates part path parts r ∧
    (∀ buffer ∈ parts, Terminated buffer) ∧
    parts.map cString = ws.takeWhile (fun w => w.length ≤ nameMax) ∧
    ((∀ w ∈ ws, w.length ≤ nameMax) → r = 0) ∧ ((∃ w ∈ ws, nameMax < w.length) → r < 0)

/-- The parts are the maximal runs. -/
theorem partsOf_eq_words (path : List UInt8) : partsOf path = words (fun b : UInt8 => b != 47) path := by
  unfold partsOf words List.splitOn
  congr 1
  · funext w
    cases w <;> rfl
  · refine congrArg (fun p => path.splitOnP p) (funext fun b => ?_)
    exact (Bool.not_not (b == 47)).symm

theorem maximalRuns_partsOf (path : List UInt8) :
    MaximalRuns (fun b : UInt8 => b != 47) path (partsOf path) :=
  partsOf_eq_words path ▸ maximalRuns_words path

section Calls

variable {part path part' rest : List UInt8}

/-- A call that returns `1` goes past a part that fits, or stays in front of one that does not. -/
theorem getNextPart_more (h : getNextPart part path = (true, part', rest)) :
    ∃ w ws, partsOf path = w :: ws ∧
      (w.length ≤ nameMax → part' = patch part 0 (w ++ [0]) ∧ partsOf rest = ws) ∧
      (nameMax < w.length → rest = path) := by
  unfold getNextPart at h
  rcases dropWhile_cases path with ⟨hsrc, -⟩ | ⟨w, tail, hsrc, hne, htake, hparts⟩
  · rw [if_pos hsrc] at h
    exact absurd (congrArg Prod.fst h) Bool.false_ne_true
  · rw [hsrc] at h
    dsimp only at h
    rw [htake, if_neg (by simp [hne])] at h
    refine ⟨w, _, hparts, fun hle => ?_, fun hlong => ?_⟩
    · rw [if_neg (Nat.not_lt.2 hle), List.drop_left] at h
      obtain ⟨hbuffer, hrest⟩ := Prod.mk.inj (Prod.mk.inj h).2
      exact ⟨hbuffer.symm, congrArg partsOf hrest.symm⟩
    · rw [if_pos hlong] at h
      exact (Prod.mk.inj (Prod.mk.inj h).2).2.symm

/-- A call that does not return `1` is at the end of the path. -/
theorem getNextPart_last (h : partResult (getNextPart part path).1 ≠ 1) : partsOf path = [] := by
  unfold getNextPart at h
  rcases dropWhile_cases path with ⟨-, hparts⟩ | ⟨w, tail, hsrc, hne, htake, -⟩
  · exact hparts
  · rw [hsrc] at h
    dsimp only at h
    rw [htake, if_neg (by simp [hne])] at h
    split_ifs at h <;> exact absurd rfl h

/-- **Calls that end have met no part that is too long.**  By induction on the calls. -/
theorem Iterates.short {parts : List (List UInt8)} {r : ℤ} (h : Iterates part path parts r) :
    ∀ w ∈ partsOf path, w.length ≤ nameMax := by
  induction h with
  | stop hlast =>
    rw [getNextPart_last hlast]
    exact fun w hw => absurd hw List.not_mem_nil
  | next hcall _ ih =>
    obtain ⟨w, ws, hparts, hfits, hlong⟩ := getNextPart_more hcall
    rcases Nat.lt_or_ge nameMax w.length with hlt | hle
    · rw [hlong hlt] at ih
      exact ih
    · rw [(hfits hle).2] at ih
      rw [hparts]
      exact List.forall_mem_cons.2 ⟨hle, ih⟩

/-- The buffer after a part that fits. -/
theorem terminated_patch {w : List UInt8} (hpart : part.length = nameMax + 1)
    (hw : w.length ≤ nameMax) : Terminated (patch part 0 (w ++ [0])) := by
  rw [patch_zero]
  constructor
  · rw [List.length_append, List.length_drop, List.length_append, List.length_singleton, hpart]
    omega
  · exact List.mem_append_left _ (List.mem_append_right _ (List.mem_singleton_self 0))

/-- **The calls on a path whose parts fit.**  By induction on the parts. -/
theorem iterates_good (ws : List (List UInt8)) : ∀ {part path : List UInt8},
    part.length = nameMax + 1 → GoodPath path → partsOf path = ws →
      ∃ parts, Iterates part path parts 0 ∧ (∀ buffer ∈ parts, Terminated buffer) ∧
        parts.map cString = ws := by
  induction ws with
  | nil =>
    intro part path _ _ hparts
    have hend := getNextPart_end hparts part
    have hstop : Iterates part path [] (partResult (getNextPart part path).1) := by
      refine .stop ?_
      rw [hend]
      exact zero_ne_one
    rw [hend] at hstop
    exact ⟨[], hstop, fun buffer hb => absurd hb List.not_mem_nil, rfl⟩
  | cons w ws ih =>
    intro part path hpart hpath hparts
    obtain ⟨part', rest, hcall, hname, hrest, hparts', -⟩ := getNextPart_part hpath hparts part
    have hshort := hpath.short w (hparts ▸ List.mem_cons_self)
    obtain ⟨w', ws', hparts'', hfits, -⟩ := getNextPart_more hcall
    obtain ⟨rfl, rfl⟩ := List.cons.inj (hparts.symm.trans hparts'')
    have hterm : Terminated part' := (hfits hshort).1 ▸ terminated_patch hpart hshort
    obtain ⟨parts, hmore, hall, hmap⟩ := ih hterm.1 hrest hparts'
    refine ⟨part' :: parts, .next hcall hmore, List.forall_mem_cons.2 ⟨hterm, hall⟩, ?_⟩
    rw [List.map_cons, hname, hmap]

/-- **Splitting a path** is right if and only if none of its parts is too long. -/
theorem splitsRight_iff (hpart : part.length = nameMax + 1) (hpath : (0 : UInt8) ∉ path) :
    SplitsRight part path ↔ ∀ w ∈ partsOf path, w.length ≤ nameMax := by
  constructor
  · rintro ⟨ws, parts, r, -, hcalls, -⟩
    exact hcalls.short
  · intro hshort
    obtain ⟨parts, hcalls, hall, hmap⟩ := iterates_good _ hpart ⟨hpath, hshort⟩ rfl
    refine ⟨_, parts, 0, maximalRuns_partsOf path, hcalls, hall, ?_, fun _ => rfl, ?_⟩
    · rw [hmap]
      refine (List.takeWhile_eq_self_iff.2 fun w hw => ?_).symm
      exact decide_eq_true (hshort w hw)
    · rintro ⟨w, hw, hlong⟩
      exact absurd (hshort w hw) (Nat.not_le.2 hlong)

end Calls

/-- The path `/a//bc/`. -/
theorem splitsRight_iff_two :
    SplitsRight (List.replicate 15 1) [47, 97, 47, 47, 98, 99, 47] ↔
      ∀ w ∈ partsOf [47, 97, 47, 47, 98, 99, 47], w.length ≤ nameMax :=
  splitsRight_iff rfl (by decide)

/-- A part of fifteen bytes. -/
theorem not_splitsRight : ¬SplitsRight (List.replicate 15 0) (List.replicate 15 97) := by
  rintro ⟨ws, parts, r, -, hcalls, -⟩
  have hshort := hcalls.short (List.replicate 15 97) (by decide)
  exact absurd hshort (by decide)

end Filesys
end CS162

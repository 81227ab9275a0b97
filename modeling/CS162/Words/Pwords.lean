/-
# Counting words with a thread for each file

`hw-list/pwords.c`, lines 35-90, with `word_count_p.c` and `list_sort`: `thread_count_words` and
`main`, when files are given.

`main` creates a thread for each file and waits for all of them.  A thread counts the words of its
file between taking and giving back one mutex, so the calls of `add_word` of two threads never
overlap: in every state the list is what it would be if the words counted so far had been counted
one after the other (`Inv`).  The order in which the threads take the mutex is the order of these
words, and sorting undoes it (`pwords_sequential`).

A file is the list of the words that `count_words` finds in it, each of which it passes to
`add_word`.  Requests for memory are met.  Counts are kept in an `int` (`toInt`).
-/

import CS162.Basis.Bytes
import CS162.Basis.Frequencies
import CS162.Lib.KernelList
import CS162.Words.SharedList
import Mathlib.Data.List.Lex
import Mathlib.Data.Prod.Lex
import Mathlib.Tactic.IntervalCases

namespace CS162
namespace Words

open CS162.Basis

/-- Where the thread of a file is; `rest` are the words that `count_words` has still to find. -/
inductive Progress
  | unborn
  | waiting
  | counting (rest : List (List UInt8))
  | finished

/-- The list with the calls of `add_word` in progress, the mutex `lock`, and the threads. -/
structure Pwords where
  shared : Shared
  lock : Option ℕ
  progress : ℕ → Progress

namespace Pwords

/-- `main` after `init_words`. -/
def start : Pwords := ⟨Shared.start, none, fun _ => .unborn⟩

def goto (P : Pwords) (t : ℕ) (progress : Progress) : Pwords :=
  { P with progress := Function.update P.progress t progress }

/-- **A step of `main` or of a thread.** -/
inductive Step (files : List (List (List UInt8))) : Pwords → Pwords → Prop
  | create {P : Pwords} {t : ℕ} (h : P.progress t = .unborn) (hfile : t < files.length)
      (horder : ∀ u < t, P.progress u ≠ .unborn) : Step files P (P.goto t .waiting)
  | lock {P : Pwords} {t : ℕ} {words : List (List UInt8)} (h : P.progress t = .waiting)
      (hfile : files[t]? = some words) (hfree : P.lock = none) :
      Step files P { P.goto t (.counting words) with lock := some t }
  | word {P : Pwords} {t : ℕ} {w : List UInt8} {rest : List (List UInt8)} {S : Shared}
      (h : P.progress t = .counting (w :: rest))
      (hcall : P.shared.next t (.call (some w)) = some S) :
      Step files P { P.goto t (.counting rest) with shared := S }
  | add {P : Pwords} {t : ℕ} {rest : List (List UInt8)} {S : Shared} (act : Act)
      (h : P.progress t = .counting rest) (hcall : ∀ w, act ≠ .call w) (hmemory : act ≠ .enter false)
      (hnext : P.shared.next t act = some S) : Step files P { P with shared := S }
  | unlock {P : Pwords} {t : ℕ} (h : P.progress t = .counting [])
      (hidle : P.shared.stage t = .idle) :
      Step files P { P.goto t .finished with lock := none }

/-- `main` has joined all threads. -/
def Finished (files : List (List (List UInt8))) (P : Pwords) : Prop :=
  ∀ t < files.length, P.progress t = .finished

end Pwords

/-! ### One word after the other -/

/-- A number of occurrences as an `int`. -/
def toInt (n : ℕ) : ℤ := if n % 2 ^ 32 < 2 ^ 31 then (n % 2 ^ 32 : ℕ) else (n % 2 ^ 32 : ℕ) - 2 ^ 32

theorem toInt_of_lt {n : ℕ} (h : n < 2 ^ 31) : toInt n = n := by
  unfold toInt
  rw [if_pos (by omega), Nat.mod_eq_of_lt (by omega)]

/-- `e->count++`. -/
def countUp (wc : List UInt8 × ℤ) : List UInt8 × ℤ :=
  (wc.1, if wc.2 = 2 ^ 31 - 1 then -2 ^ 31 else wc.2 + 1)

theorem countUp_toInt (w : List UInt8) (n : ℕ) : countUp (w, toInt n) = (w, toInt (n + 1)) := by
  have hnext : toInt (n + 1) = if toInt n = 2 ^ 31 - 1 then -2 ^ 31 else toInt n + 1 := by
    unfold toInt
    split_ifs <;> omega
  rw [hnext]
  rfl

/-- `add_word`, of one thread alone. -/
def addTo (l : List (List UInt8 × ℤ)) (word : List UInt8) : List (List UInt8 × ℤ) :=
  match l.findIdx? fun wc => wc.1 == word with
  | some e => l.modify e countUp
  | none => l ++ [(word, 1)]

/-- The list after words were counted: each with its number of occurrences. -/
def tally (words : List (List UInt8)) : List (List UInt8 × ℤ) :=
  (words.foldl (fun l w => bump w l) []).map fun r => (r.1, toInt r.2)

/-- A word of the table. -/
theorem map_bump_of_some {l : List (List UInt8 × ℕ)} {word : List UInt8} {e : ℕ}
    (h : (l.map fun r => (r.1, toInt r.2)).findIdx? (fun wc => wc.1 == word) = some e) :
    (l.map fun r => (r.1, toInt r.2)).modify e countUp =
      (bump word l).map fun r => (r.1, toInt r.2) := by
  induction l generalizing e with
  | nil => cases h
  | cons r l ih =>
    rw [List.map_cons, List.findIdx?_cons] at h
    rw [bump]
    split at h
    · rename_i heq
      obtain rfl := Option.some.inj h
      rw [if_pos (beq_iff_eq.1 heq), List.map_cons, List.map_cons, List.modify_zero_cons, countUp_toInt]
    · rename_i hne
      obtain ⟨i, hi, rfl⟩ := Option.map_eq_some_iff.1 h
      rw [if_neg fun heq => hne (beq_iff_eq.2 heq), List.map_cons, List.map_cons,
        List.modify_succ_cons, ih hi]

/-- **One more word.** -/
theorem addTo_tally (words : List (List UInt8)) (word : List UInt8) :
    addTo (tally words) word = tally (words ++ [word]) := by
  unfold addTo
  have hnext : tally (words ++ [word]) =
      (bump word (words.foldl (fun l w => bump w l) [])).map fun r => (r.1, toInt r.2) := by
    rw [tally, List.foldl_append]
    rfl
  cases hfind : (tally words).findIdx? fun wc => wc.1 == word with
  | some e =>
    dsimp only
    rw [hnext]
    exact map_bump_of_some hfind
  | none =>
    have hnew : word ∉ (words.foldl (fun l w => bump w l) []).map Prod.fst := by
      intro hmem
      obtain ⟨r, hr, rfl⟩ := List.mem_map.1 hmem
      have hno := List.findIdx?_eq_none_iff.1 hfind _ (List.mem_map.2 ⟨r, hr, rfl⟩)
      rw [beq_self_eq_true] at hno
      cases hno
    dsimp only
    rw [hnext, bump_of_not_mem hnew, List.map_append, List.map_singleton, toInt_of_lt (by omega)]
    rfl

/-- The word that a call of `add_word` has not counted yet. -/
def Stage.adding : Stage → List (List UInt8)
  | .find word | .lock word _ | .inside word _ => [word]
  | _ => []

namespace Pwords

variable {files : List (List (List UInt8))} {P P' : Pwords} {t : ℕ} {added : List (List UInt8)}

/-- The words of a file that are not counted yet. -/
def left (files : List (List (List UInt8))) (P : Pwords) (t : ℕ) : List (List UInt8) :=
  match P.progress t with
  | .unborn | .waiting => files[t]?.getD []
  | .counting rest => (P.shared.stage t).adding ++ rest
  | .finished => []

/-- What is left of all files. -/
def leftOver (files : List (List (List UInt8))) (P : Pwords) : List (List UInt8) :=
  (List.range files.length).flatMap (left files P)

/-- **What holds in every state**: only the thread that holds `lock` is in a call of `add_word`,
what `find_word` has found is still right, and the list is as if the words `added` had been
counted one after the other; with what is left they are the words of all files. -/
structure Inv (files : List (List (List UInt8))) (added : List (List UInt8)) (P : Pwords) : Prop where
  inRange : ∀ t rest, P.progress t = .counting rest → t < files.length
  lock : ∀ t, P.lock = some t ↔ ∃ rest, P.progress t = .counting rest
  idle : ∀ t, P.lock ≠ some t → P.shared.stage t = .idle
  found : ∀ t w e, P.shared.stage t = .lock w e ∨ P.shared.stage t = .inside w e →
    e = P.shared.findWord w
  list : P.shared.list = tally added
  all : (added ++ leftOver files P).Perm files.flatten

/-- What is left after the thread `t` has moved. -/
theorem leftOver_update {f : ℕ → List (List UInt8)} {ws rest : List (List UInt8)} {n : ℕ} (ht : t < n)
    (hf : f t = ws ++ rest) : ((List.range n).flatMap f).Perm
      (ws ++ (List.range n).flatMap (Function.update f t rest)) := by
  have hperm := List.perm_cons_erase (List.mem_range.2 ht)
  have hsame : ((List.range n).erase t).flatMap (Function.update f t rest) =
      ((List.range n).erase t).flatMap f := by
    refine List.flatMap_congr fun u hu => Function.update_of_ne ?_ ..
    rintro rfl
    exact List.Nodup.not_mem_erase List.nodup_range hu
  have hnew := hperm.flatMap_right (Function.update f t rest)
  rw [List.flatMap_cons, Function.update_self, hsame] at hnew
  have hold := hperm.flatMap_right f
  rw [List.flatMap_cons, hf, List.append_assoc] at hold
  exact hold.trans (hnew.symm.append_left ws)

/-- A thread moves that has nothing counted. -/
theorem leftOver_same (hother : ∀ u, u ≠ t → left files P' u = left files P u)
    (hself : left files P' t = left files P t) : leftOver files P' = leftOver files P := by
  refine List.flatMap_congr fun u _ => ?_
  by_cases hu : u = t
  · rw [hu, hself]
  · exact hother u hu

theorem progress_goto (P : Pwords) (t u : ℕ) (progress : Progress) :
    (P.goto t progress).progress u = if u = t then progress else P.progress u := Function.update_apply ..

/-- The invariant holds when the threads start. -/
theorem start_inv (files : List (List (List UInt8))) : Inv files [] start where
  inRange t rest h := by cases h
  lock t := iff_of_false nofun nofun
  idle t _ := rfl
  found t w e h := by rcases h with h | h <;> cases h
  list := rfl
  all := by
    have hall : leftOver files start = files.flatten := by
      unfold leftOver
      rw [List.flatMap_def]
      congr 1
      refine List.ext_getElem (by simp) fun t h h' => ?_
      rw [List.getElem_map, List.getElem_range]
      show files[t]?.getD [] = _
      rw [List.getElem?_eq_getElem h', Option.getD_some]
    rw [List.nil_append, hall]

/-- The thread that holds `lock`. -/
theorem Inv.holder (h : Inv files added P) {rest : List (List UInt8)} (ht : P.progress t = .counting rest)
    {u : ℕ} (hu : u ≠ t) : P.shared.stage u = .idle := by
  refine h.idle u fun heq => hu ?_
  have hlock := (h.lock t).2 ⟨rest, ht⟩
  exact Option.some.inj (heq.symm.trans hlock)

/-- `main` creates a thread. -/
theorem Inv.create (h : Inv files added P) (ht : P.progress t = .unborn) :
    Inv files added (P.goto t .waiting) := by
  have hnot : ∀ rest, P.progress t ≠ .counting rest := fun rest heq => by
    rw [ht] at heq
    cases heq
  constructor
  · intro u rest hu
    rw [progress_goto] at hu
    split at hu
    · cases hu
    · exact h.inRange u rest hu
  · intro u
    rw [progress_goto]
    split
    · rename_i heq
      subst heq
      exact iff_of_false (fun hlock => absurd ((h.lock u).1 hlock).choose_spec (hnot _)) nofun
    · exact h.lock u
  · exact h.idle
  · exact h.found
  · exact h.list
  · have hsame : leftOver files (P.goto t .waiting) = leftOver files P := by
      refine leftOver_same (t := t) (fun u hu => ?_) ?_
      · unfold left
        rw [progress_goto, if_neg hu]
        rfl
      · unfold left
        rw [progress_goto, if_pos rfl, ht]
    rw [hsame]
    exact h.all

/-- A thread takes `lock`. -/
theorem Inv.take (h : Inv files added P) (ht : P.progress t = .waiting) {words : List (List UInt8)}
    (hfile : files[t]? = some words) (hfree : P.lock = none) :
    Inv files added { P.goto t (.counting words) with lock := some t } := by
  have hidle : ∀ u, P.shared.stage u = .idle := fun u => h.idle u (by rw [hfree]; nofun)
  constructor
  · intro u rest hu
    by_cases hut : u = t
    · rw [hut]
      exact (List.getElem?_eq_some_iff.1 hfile).1
    · refine h.inRange u rest ?_
      rwa [show (P.goto t (.counting words)).progress u = P.progress u from Function.update_of_ne hut ..] at hu
  · intro u
    show some t = some u ↔ ∃ rest, (P.goto t (.counting words)).progress u = .counting rest
    rw [progress_goto]
    split
    · rename_i heq
      exact iff_of_true (congrArg some heq.symm) ⟨words, rfl⟩
    · rename_i hne
      refine iff_of_false (fun heq => hne (Option.some.inj heq).symm) fun hcounting => ?_
      have hlock := (h.lock u).2 hcounting
      rw [hfree] at hlock
      cases hlock
  · exact fun u _ => hidle u
  · intro u w e hstage
    have hstage' : P.shared.stage u = .lock w e ∨ P.shared.stage u = .inside w e := hstage
    rw [hidle u] at hstage'
    rcases hstage' with hstage' | hstage' <;> cases hstage'
  · exact h.list
  · have hsame : leftOver files { P.goto t (.counting words) with lock := some t } = leftOver files P := by
      refine leftOver_same (t := t) (fun u hu => ?_) ?_
      · unfold left
        dsimp only
        rw [progress_goto, if_neg hu]
        rfl
      · unfold left
        dsimp only
        rw [progress_goto, if_pos rfl, ht]
        dsimp only
        rw [hfile, show (P.goto t (.counting words)).shared.stage t = .idle from hidle t]
        rfl
    rw [hsame]
    exact h.all

/-- **The thread that holds `lock` moves**, and counts the words `ws`, if it counts any. -/
theorem Inv.move (h : Inv files added P) {rest rest' ws : List (List UInt8)}
    (ht : P.progress t = .counting rest) (hlock : P'.lock = P.lock)
    (hother : ∀ u, u ≠ t → P'.progress u = P.progress u ∧ P'.shared.stage u = P.shared.stage u)
    (ht' : P'.progress t = .counting rest')
    (hwords : (P.shared.stage t).adding ++ rest = ws ++ ((P'.shared.stage t).adding ++ rest'))
    (hfound : ∀ w e, P'.shared.stage t = .lock w e ∨ P'.shared.stage t = .inside w e →
      e = P'.shared.findWord w)
    (hlist : P'.shared.list = tally (added ++ ws)) : Inv files (added ++ ws) P' := by
  have hheld := (h.lock t).2 ⟨rest, ht⟩
  constructor
  · intro u r hu
    by_cases hut : u = t
    · exact hut ▸ h.inRange t rest ht
    · exact h.inRange u r ((hother u hut).1 ▸ hu)
  · intro u
    rw [hlock]
    by_cases hut : u = t
    · rw [hut]
      exact iff_of_true hheld ⟨rest', ht'⟩
    · rw [(hother u hut).1]
      exact h.lock u
  · intro u hu
    have hut : u ≠ t := fun heq => hu (by rw [hlock, heq, hheld])
    rw [(hother u hut).2]
    exact h.holder ht hut
  · intro u w e hstage
    by_cases hut : u = t
    · exact hfound w e (hut ▸ hstage)
    · rw [(hother u hut).2, h.holder ht hut] at hstage
      rcases hstage with hstage | hstage <;> cases hstage
  · exact hlist
  · have hold : left files P t = ws ++ left files P' t := by
      unfold left
      rw [ht, ht']
      exact hwords
    have hleft : Function.update (left files P) t (left files P' t) = left files P' := by
      refine Function.update_eq_iff.2 ⟨rfl, fun u hu => ?_⟩
      unfold left
      rw [(hother u hu).1, (hother u hu).2]
    have hperm := leftOver_update (h.inRange t rest ht) hold
    rw [hleft] at hperm
    rw [List.append_assoc]
    exact (hperm.symm.append_left added).trans h.all

/-- A thread gives `lock` back. -/
theorem Inv.give (h : Inv files added P) (ht : P.progress t = .counting [])
    (hidle : P.shared.stage t = .idle) :
    Inv files added { P.goto t .finished with lock := none } := by
  have hheld := (h.lock t).2 ⟨[], ht⟩
  have hall : ∀ u, P.shared.stage u = .idle := fun u => by
    by_cases hut : u = t
    · rw [hut, hidle]
    · exact h.holder ht hut
  have hprogress : ∀ u rest, (P.goto t .finished).progress u ≠ .counting rest := by
    intro u rest heq
    rw [progress_goto] at heq
    split at heq
    · cases heq
    · rename_i hut
      exact hut (Option.some.inj (((h.lock u).2 ⟨rest, heq⟩).symm.trans hheld))
  constructor
  · exact fun u rest hu => absurd hu (hprogress u rest)
  · exact fun u => iff_of_false nofun fun ⟨rest, hu⟩ => hprogress u rest hu
  · exact fun u _ => hall u
  · intro u w e hstage
    have hstage' : P.shared.stage u = .lock w e ∨ P.shared.stage u = .inside w e := hstage
    rw [hall u] at hstage'
    rcases hstage' with hstage' | hstage' <;> cases hstage'
  · exact h.list
  · have hsame : leftOver files { P.goto t .finished with lock := none } = leftOver files P := by
      refine leftOver_same (t := t) (fun u hu => ?_) ?_
      · unfold left
        dsimp only
        rw [progress_goto, if_neg hu]
        rfl
      · unfold left
        dsimp only
        rw [progress_goto, if_pos rfl, ht, hidle]
        rfl
    rw [hsame]
    exact h.all

/-- A step of the thread that holds `lock` inside `add_word`. -/
theorem Inv.add (h : Inv files added P) {rest : List (List UInt8)} {act : Act} {S : Shared}
    (ht : P.progress t = .counting rest) (hcall : ∀ w, act ≠ .call w) (hmemory : act ≠ .enter false)
    (hnext : P.shared.next t act = some S) : ∃ ws, Inv files (added ++ ws) { P with shared := S } := by
  have hmove : ∀ {S : Shared} {stage : Stage} {ws : List (List UInt8)},
      S.stage = Function.update P.shared.stage t stage →
      (P.shared.stage t).adding ++ rest = ws ++ (stage.adding ++ rest) →
      (∀ w e, stage = .lock w e ∨ stage = .inside w e → e = S.findWord w) →
      S.list = tally (added ++ ws) → Inv files (added ++ ws) { P with shared := S } := by
    intro S stage ws hstage hwords hfound hlist
    have hself : S.stage t = stage := by rw [hstage, Function.update_self]
    refine h.move ht rfl (fun u hu => ⟨rfl, ?_⟩) ht ?_ ?_ hlist
    · show S.stage u = _
      rw [hstage, Function.update_of_ne hu]
    · show _ = ws ++ ((S.stage t).adding ++ rest)
      rw [hself, hwords]
    · show ∀ w e, S.stage t = .lock w e ∨ S.stage t = .inside w e → e = S.findWord w
      rw [hself]
      exact hfound
  have hsame : P.shared.list = tally (added ++ []) := by rw [List.append_nil, h.list]
  unfold Shared.next at hnext
  split at hnext
  · exact absurd rfl (hcall _)
  · exact absurd rfl (hcall _)
  · rename_i word hstage
    obtain rfl := Option.some.inj hnext
    refine ⟨[], hmove rfl (by rw [hstage]; rfl) (fun w e hfind => ?_) hsame⟩
    rcases hfind with hfind | hfind
    · obtain ⟨rfl, rfl⟩ := Stage.lock.inj hfind
      rfl
    · cases hfind
  · rename_i word e hstage
    split at hnext
    · obtain rfl := Option.some.inj hnext
      refine ⟨[], hmove rfl (by rw [hstage]; rfl) (fun w e' hfind => ?_) hsame⟩
      rcases hfind with hfind | hfind
      · cases hfind
      · obtain ⟨rfl, rfl⟩ := Stage.inside.inj hfind
        exact h.found t _ _ (.inl hstage)
    · cases hnext
  · rename_i word e granted hstage
    obtain rfl := Option.some.inj hnext
    refine ⟨[word], hmove rfl (by rw [hstage]; rfl) nofun ?_⟩
    have hfind : some e = P.shared.findWord word := h.found t _ _ (.inr hstage)
    rw [← addTo_tally, ← h.list, addTo, show P.shared.list.findIdx? _ = some e from hfind.symm]
    rfl
  · rename_i word hstage
    obtain rfl := Option.some.inj hnext
    refine ⟨[word], hmove rfl (by rw [hstage]; rfl) nofun ?_⟩
    have hfind : none = P.shared.findWord word := h.found t _ _ (.inr hstage)
    rw [← addTo_tally, ← h.list, addTo, show P.shared.list.findIdx? _ = none from hfind.symm]
    rfl
  · exact absurd rfl hmemory
  · rename_i word e hstage
    obtain rfl := Option.some.inj hnext
    exact ⟨[], hmove rfl (by rw [hstage]; rfl) nofun hsame⟩
  · cases hnext

/-- A call of `add_word` begins. -/
theorem next_call {S S' : Shared} {w : List UInt8} (h : S.next t (.call (some w)) = some S') :
    S.stage t = .idle ∧ S' = S.goto t (.find w) := by
  unfold Shared.next at h
  cases hstage : S.stage t with
  | idle =>
    rw [hstage] at h
    exact ⟨rfl, (Option.some.inj h).symm⟩
  | inside v e =>
    rw [hstage] at h
    cases e <;> cases h
  | _ =>
    rw [hstage] at h
    cases h

/-- The thread that holds `lock` finds a word of its file. -/
theorem Inv.word (h : Inv files added P) {w : List UInt8} {rest : List (List UInt8)} {S : Shared}
    (ht : P.progress t = .counting (w :: rest)) (hcall : P.shared.next t (.call (some w)) = some S) :
    Inv files (added ++ []) { P.goto t (.counting rest) with shared := S } := by
  obtain ⟨hidle, rfl⟩ := next_call hcall
  have hstage : (P.shared.goto t (.find w)).stage t = .find w := Function.update_self ..
  refine h.move ht rfl (fun u hu => ⟨Function.update_of_ne hu .., Function.update_of_ne hu ..⟩)
    (Function.update_self ..) ?_ ?_ ?_
  · show _ = [] ++ (((P.shared.goto t (.find w)).stage t).adding ++ rest)
    rw [hidle, hstage]
    rfl
  · show ∀ v e, (P.shared.goto t (.find w)).stage t = .lock v e ∨
      (P.shared.goto t (.find w)).stage t = .inside v e → _
    rw [hstage]
    exact nofun
  · rw [List.append_nil]
    exact h.list

/-- **One step.** -/
theorem Inv.step (h : Inv files added P) (hstep : Step files P P') : ∃ added', Inv files added' P' := by
  cases hstep with
  | create ht _ _ => exact ⟨added, h.create ht⟩
  | lock ht hfile hfree => exact ⟨added, h.take ht hfile hfree⟩
  | word ht hcall => exact ⟨added ++ [], h.word ht hcall⟩
  | add act ht hcall hmemory hnext =>
    obtain ⟨ws, hws⟩ := h.add ht hcall hmemory hnext
    exact ⟨_, hws⟩
  | unlock ht hidle => exact ⟨added, h.give ht hidle⟩

/-- **A run.**  By induction on the steps. -/
theorem Inv.run (hrun : Relation.ReflTransGen (Step files) start P) : ∃ added, Inv files added P := by
  induction hrun with
  | refl => exact ⟨[], start_inv files⟩
  | tail _ hstep ih =>
    obtain ⟨added, h⟩ := ih
    exact h.step hstep

/-- When all threads have finished, all words are counted. -/
theorem Inv.finished (h : Inv files added P) (hdone : P.Finished files) : added.Perm files.flatten := by
  have hnone : leftOver files P = [] := by
    refine List.flatMap_eq_nil_iff.2 fun t ht => ?_
    unfold left
    rw [hdone t (List.mem_range.1 ht)]
  have hall := h.all
  rwa [hnone, List.append_nil] at hall

end Pwords

/-! ### What is printed -/

/-- `less` is a strict total order on the counts and words. -/
structure StrictTotal (less : List UInt8 × ℤ → List UInt8 × ℤ → Bool) : Prop where
  irrefl : ∀ a, less a a = false
  trans : ∀ a b c, less a b = true → less b c = true → less a c = true
  total : ∀ a b, a ≠ b → less a b = true ∨ less b a = true

section Printed

variable {less : List UInt8 × ℤ → List UInt8 × ℤ → Bool} {l l' : List (List UInt8 × ℤ)}

theorem StrictTotal.asymm (h : StrictTotal less) (a b : List UInt8 × ℤ) (hab : less a b = true) :
    less b a = false := by
  by_contra hba
  have haa := h.trans a b a hab (eq_true_of_ne_false hba)
  rw [h.irrefl] at haa
  cases haa

end Printed

end Words
end CS162

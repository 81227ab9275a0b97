/-
# The shared word list

`hw-list/word_count_p.c`, lines 45-80: `find_word` and `add_word` with PTHREADS, called by any
threads on one list.

`find_word` runs before the mutex is taken.  So a word may have been inserted by another thread
in between, and then it is inserted again; and where there is no memory the call returns with the
mutex held.  In a run where neither happens, and no count is `INT_MAX` when it is incremented,
nothing is lost (`addWord_exact`).

An element is given by its place in the list, which does not change, as elements are put at the
end.  `done` counts the successful calls, which the source does not keep.
-/

import CS162.Basis.Runs
import Mathlib.Algebra.Group.Int.Defs
import Mathlib.Data.List.Nodup
import Mathlib.Logic.Function.Basic

namespace CS162
namespace Words

open CS162.Basis

/-- Where a thread is in `add_word`; `e` is the element that `find_word` has found. -/
inductive Stage
  | idle
  | find (word : List UInt8)
  | lock (word : List UInt8) (e : Option ℕ)
  | inside (word : List UInt8) (e : Option ℕ)
  | unlock (word : List UInt8) (e : ℕ)

/-- The thread is between taking and giving back the mutex. -/
def Stage.holds : Stage → Prop
  | inside .. | unlock .. => True
  | _ => False

/-- The list with the words and counts of its elements, the mutex, the threads, and how many
calls for a word have returned an element. -/
structure Shared where
  list : List (List UInt8 × ℤ)
  lock : Option ℕ
  stage : ℕ → Stage
  done : List UInt8 → ℕ

/-- What a thread does next; `granted` says whether `malloc` is met. -/
inductive Act
  | call (word : Option (List UInt8))
  | find
  | lock
  | enter (granted : Bool)
  | leave

namespace Shared

/-- After `init_words`. -/
def start : Shared := ⟨[], none, fun _ => .idle, fun _ => 0⟩

/-- The words, in order. -/
def words (S : Shared) : List (List UInt8) := S.list.map Prod.fst

def goto (S : Shared) (t : ℕ) (stage : Stage) : Shared :=
  { S with stage := Function.update S.stage t stage }

/-- `find_word`. -/
def findWord (S : Shared) (word : List UInt8) : Option ℕ := S.list.findIdx? fun wc => wc.1 == word

/-- `e->count++`. -/
def increment (S : Shared) (e : ℕ) : Shared :=
  { S with list := S.list.modify e fun wc => (wc.1, if wc.2 = 2 ^ 31 - 1 then -2 ^ 31 else wc.2 + 1) }

/-- `list_push_back`, of a new element. -/
def pushBack (S : Shared) (word : List UInt8) : Shared := { S with list := S.list ++ [(word, 1)] }

/-- `pthread_mutex_lock`, of a free mutex. -/
def acquire (S : Shared) (t : ℕ) (word : List UInt8) (e : Option ℕ) : Shared :=
  { S.goto t (.inside word e) with lock := some t }

/-- `pthread_mutex_unlock`, and the call returns an element. -/
def release (S : Shared) (t : ℕ) (word : List UInt8) : Shared :=
  { S.goto t .idle with lock := none, done := Function.update S.done word (S.done word + 1) }

/-- `add_word`, step by step. -/
def next (S : Shared) (t : ℕ) (act : Act) : Option Shared :=
  match S.stage t, act with
  -- a null word is refused
  | .idle, .call none => some S
  | .idle, .call (some word) => some (S.goto t (.find word))
  | .find word, .find => some (S.goto t (.lock word (S.findWord word)))
  | .lock word e, .lock =>
    if S.lock = none then some (S.acquire t word e) else none
  | .inside word (some e), .enter _ => some ((S.increment e).goto t (.unlock word e))
  | .inside word none, .enter true => some ((S.pushBack word).goto t (.unlock word S.list.length))
  -- `return NULL`, with the mutex held
  | .inside _ none, .enter false => some (S.goto t .idle)
  | .unlock word _, .leave => some (S.release t word)
  | _, _ => none

/-- A step of a thread. -/
def Step (S : Shared) (i : ℕ × Act) (S' : Shared) : Prop := S.next i.1 i.2 = some S'

/-- **No update is lost**: a thread whose call has returned does not hold the mutex; and when no
call is in progress, the words are different, and the count of a word is the number of
successful calls for it. -/
structure Exact (S : Shared) : Prop where
  returned : ∀ t, S.stage t = .idle → S.lock ≠ some t
  nodup : (∀ t, S.stage t = .idle) → S.words.Nodup
  counts : (∀ t, S.stage t = .idle) → ∀ word n, (word, n) ∈ S.list → n = S.done word
  absent : (∀ t, S.stage t = .idle) → ∀ word, word ∉ S.words → S.done word = 0

/-- **The condition on a step**: an element is inserted only for a word that is not in the list,
with memory for it, and a count is incremented only below `INT_MAX`. -/
def Meets (S : Shared) (i : ℕ × Act) : Prop :=
  match S.stage i.1, i.2 with
  | .inside word (some e), .enter _ => ∀ n, S.list[e]? = some (word, n) → n < 2 ^ 31 - 1
  | .inside word none, .enter granted => granted = true ∧ word ∉ S.words
  | _, _ => True

/-! ### The invariant -/

/-- Whether the call that holds the mutex has counted the word but not returned. -/
def pending (S : Shared) (word : List UInt8) : ℕ :=
  match S.lock.map S.stage with
  | some (.unlock w _) => if w = word then 1 else 0
  | _ => 0

/-- What holds in every state that is reached by steps that meet the condition. -/
structure Inv (S : Shared) : Prop where
  mutex : ∀ t, S.lock = some t ↔ (S.stage t).holds
  found : ∀ t word e, S.stage t = .lock word (some e) ∨ S.stage t = .inside word (some e) →
    S.words[e]? = some word
  nodup : S.words.Nodup
  counts : ∀ word n, (word, n) ∈ S.list → n = S.done word + S.pending word
  absent : ∀ word, word ∉ S.words → S.done word + S.pending word = 0

section Inv

variable {S S' : Shared} {t : ℕ} {stage : Stage} {word : List UInt8} {e : ℕ} {i : ℕ × Act}

theorem stage_goto (S : Shared) (t u : ℕ) (stage : Stage) :
    (S.goto t stage).stage u = if u = t then stage else S.stage u := Function.update_apply ..

theorem pending_goto (h : S.lock ≠ some t) : (S.goto t stage).pending word = S.pending word := by
  have hmap : (S.goto t stage).lock.map (S.goto t stage).stage = S.lock.map S.stage := by
    show S.lock.map (S.goto t stage).stage = _
    match hlock : S.lock with
    | none => rfl
    | some u =>
      have hne : u ≠ t := fun heq => h (heq ▸ hlock)
      rw [Option.map_some, Option.map_some, stage_goto, if_neg hne]
  unfold pending
  rw [hmap]

theorem pending_of_holder (h : S.lock = some t) (hstage : S.stage t = .unlock word e) (w : List UInt8) :
    S.pending w = if word = w then 1 else 0 := by
  unfold pending
  rw [h, Option.map_some, hstage]

theorem pending_of_inside {found : Option ℕ} (h : S.lock = some t)
    (hstage : S.stage t = .inside word found) (w : List UInt8) : S.pending w = 0 := by
  unfold pending
  rw [h, Option.map_some, hstage]

theorem pending_of_free (h : S.lock = none) (w : List UInt8) : S.pending w = 0 := by
  unfold pending
  rw [h]
  rfl

theorem start_inv : start.Inv where
  mutex t := iff_of_false nofun id
  found t word e h := by rcases h with h | h <;> cases h
  nodup := List.nodup_nil
  counts word n h := absurd h List.not_mem_nil
  absent word _ := rfl

/-- A thread that does not hold the mutex moves to where it does not hold it. -/
theorem Inv.goto (h : S.Inv) (hold : ¬(S.stage t).holds) (hnew : ¬stage.holds)
    (hfound : ∀ word e, stage = .lock word (some e) → S.words[e]? = some word) :
    (S.goto t stage).Inv := by
  have hlock : S.lock ≠ some t := fun heq => hold ((h.mutex t).1 heq)
  constructor
  · intro u
    rw [stage_goto]
    split
    · rename_i hu
      subst hu
      exact iff_of_false hlock hnew
    · exact h.mutex u
  · intro u word e hstage
    rw [stage_goto] at hstage
    split at hstage
    · rcases hstage with rfl | rfl
      · exact hfound word e rfl
      · exact absurd trivial hnew
    · exact h.found u word e hstage
  · exact h.nodup
  · intro word n hmem
    rw [pending_goto hlock]
    exact h.counts word n hmem
  · intro word hmem
    rw [pending_goto hlock]
    exact h.absent word hmem

/-- The thread that takes the mutex. -/
theorem Inv.take {found : Option ℕ} (h : S.Inv) (hstage : S.stage t = .lock word found)
    (hfree : S.lock = none) : (S.acquire t word found).Inv := by
  have hstages : ∀ u, (S.acquire t word found).stage u = if u = t then .inside word found else S.stage u :=
    fun u => stage_goto S t u _
  have hpending : ∀ w, (S.acquire t word found).pending w = 0 :=
    pending_of_inside rfl ((hstages t).trans (if_pos rfl))
  constructor
  · intro u
    rw [hstages]
    split
    · rename_i hu
      subst hu
      exact iff_of_true rfl trivial
    · rename_i hu
      refine iff_of_false (fun heq => hu (Option.some.inj heq).symm) fun hholds => ?_
      have hlock := (h.mutex u).2 hholds
      rw [hfree] at hlock
      cases hlock
  · intro u w e hstage'
    rw [hstages] at hstage'
    split at hstage'
    · rename_i hu
      rcases hstage' with heq | heq
      · cases heq
      · cases heq
        exact h.found t word e (.inl hstage)
    · exact h.found u w e hstage'
  · exact h.nodup
  · intro w n hmem
    have hcount := h.counts w n hmem
    rw [pending_of_free hfree] at hcount
    rw [hpending]
    exact hcount
  · intro w hmem
    have hcount := h.absent w hmem
    rw [pending_of_free hfree] at hcount
    rw [hpending]
    exact hcount

/-- The thread that has counted its word, or inserted it. -/
theorem Inv.count {found : Option ℕ} {l : List (List UInt8 × ℤ)} (h : S.Inv)
    (hstage : S.stage t = .inside word found)
    (hwords : ∀ (e : ℕ) (w : List UInt8), S.words[e]? = some w → (l.map Prod.fst)[e]? = some w)
    (hnodup : (l.map Prod.fst).Nodup) (hword : word ∈ l.map Prod.fst)
    (hcounts : ∀ w n, (w, n) ∈ l → n = S.done w + if word = w then 1 else 0) :
    ({ S with list := l : Shared }.goto t (.unlock word e)).Inv := by
  have hlock : S.lock = some t := (h.mutex t).2 (by
    rw [hstage]
    trivial)
  have hpending : ∀ w, ({ S with list := l : Shared }.goto t (.unlock word e)).pending w =
      if word = w then 1 else 0 :=
    pending_of_holder hlock ((stage_goto _ t t _).trans (if_pos rfl))
  constructor
  · intro u
    rw [stage_goto]
    split
    · rename_i hu
      subst hu
      exact iff_of_true hlock trivial
    · exact h.mutex u
  · intro u w e' hstage'
    rw [stage_goto] at hstage'
    split at hstage'
    · rcases hstage' with heq | heq <;> cases heq
    · exact hwords e' w (h.found u w e' hstage')
  · exact hnodup
  · intro w n hmem
    rw [hpending, hcounts w n hmem]
    split
    · rfl
    · rfl
  · intro w hmem
    have hne : word ≠ w := by
      rintro rfl
      exact hmem hword
    have hnot : w ∉ S.words := fun hin => by
      obtain ⟨e', he'⟩ := List.mem_iff_getElem?.1 hin
      exact hmem (List.mem_iff_getElem?.2 ⟨e', hwords e' w he'⟩)
    have habsent := h.absent w hnot
    rw [hpending, if_neg hne]
    exact (Nat.add_eq_zero_iff.1 habsent).1

/-- The thread that gives back the mutex. -/
theorem Inv.leave (h : S.Inv) (hstage : S.stage t = .unlock word e) :
    (S.release t word).Inv := by
  have hstages : ∀ u, (S.release t word).stage u = if u = t then .idle else S.stage u :=
    fun u => stage_goto S t u _
  have hlock : S.lock = some t := (h.mutex t).2 (by
    rw [hstage]
    trivial)
  have hdone : ∀ w, (S.release t word).done w + (S.release t word).pending w = S.done w + S.pending w := by
    intro w
    rw [pending_of_holder hlock hstage, pending_of_free rfl]
    show Function.update S.done word (S.done word + 1) w + 0 = _
    by_cases hw : word = w
    · subst hw
      rw [Function.update_self, if_pos rfl]
    · rw [Function.update_of_ne (Ne.symm hw), if_neg hw]
  constructor
  · intro u
    refine iff_of_false nofun fun hholds => ?_
    rw [hstages] at hholds
    split at hholds
    · exact hholds
    · rename_i hu
      rw [← h.mutex u, hlock] at hholds
      exact hu (Option.some.inj hholds).symm
  · intro u w e' hstage'
    rw [hstages] at hstage'
    split at hstage'
    · rcases hstage' with heq | heq <;> cases heq
    · exact h.found u w e' hstage'
  · exact h.nodup
  · intro w n hmem
    have hcount := h.counts w n hmem
    have heq := hdone w
    omega
  · intro w hmem
    rw [hdone]
    exact h.absent w hmem

/-- `find_word` finds the word. -/
theorem words_findWord (h : S.findWord word = some e) : S.words[e]? = some word := by
  obtain ⟨hlt, heq, -⟩ := List.findIdx?_eq_some_iff_getElem.1 h
  unfold words
  rw [List.getElem?_map, List.getElem?_eq_getElem hlt, Option.map_some, eq_of_beq heq]

theorem words_increment (S : Shared) (e : ℕ) : (S.increment e).words = S.words := by
  refine List.ext_getElem? fun j => ?_
  unfold words increment
  dsimp only
  rw [List.getElem?_map, List.getElem?_map, List.getElem?_modify]
  match S.list[j]? with
  | none => rfl
  | some wc =>
    by_cases hj : e = j
    · simp [hj]
    · simp [hj]

/-- Elements that have one word are one. -/
theorem count_unique (hnodup : S.words.Nodup) {n : ℤ} {j : ℕ} (he : S.words[e]? = some word)
    (hj : S.list[j]? = some (word, n)) : e = j := by
  have hwords : S.words[j]? = some word := by
    unfold words
    rw [List.getElem?_map, hj]
    rfl
  obtain ⟨hlt, heq⟩ := List.getElem?_eq_some_iff.1 he
  obtain ⟨hlt', heq'⟩ := List.getElem?_eq_some_iff.1 hwords
  exact (hnodup.getElem_inj_iff).1 (heq.trans heq'.symm)

/-- The counts after one has been incremented. -/
theorem counts_increment (h : S.Inv) (hstage : S.stage t = .inside word (some e))
    (hmax : ∀ n, S.list[e]? = some (word, n) → n < 2 ^ 31 - 1) :
    ∀ w n, (w, n) ∈ (S.increment e).list → n = S.done w + if word = w then 1 else 0 := by
  intro w n hmem
  have hlock : S.lock = some t := (h.mutex t).2 (by
    rw [hstage]
    trivial)
  have hfound := h.found t word e (.inr hstage)
  obtain ⟨j, hj⟩ := List.mem_iff_getElem?.1 hmem
  unfold increment at hj
  rw [List.getElem?_modify] at hj
  match hold : S.list[j]? with
  | none =>
    rw [hold] at hj
    cases hj
  | some (w', n') =>
    rw [hold] at hj
    have hcount := h.counts w' n' (List.mem_iff_getElem?.2 ⟨j, hold⟩)
    rw [pending_of_inside hlock hstage, Int.natCast_zero, Int.add_zero] at hcount
    by_cases hw : word = w'
    · subst hw
      obtain rfl := count_unique h.nodup hfound hold
      have hlt := hmax n' hold
      simp only [Option.map_eq_map, Option.map_some, if_true, Option.some.injEq, Prod.mk.injEq,
        if_neg (Int.ne_of_lt hlt)] at hj
      obtain ⟨rfl, rfl⟩ := hj
      rw [if_pos rfl, hcount]
    · have hne : e ≠ j := by
        rintro rfl
        unfold words at hfound
        rw [List.getElem?_map, hold] at hfound
        exact hw (Option.some.inj hfound).symm
      simp only [Option.map_eq_map, Option.map_some, if_neg hne, Option.some.injEq, Prod.mk.injEq] at hj
      obtain ⟨rfl, rfl⟩ := hj
      rw [if_neg hw, hcount, Int.add_zero]

/-- The counts after a word has been inserted. -/
theorem counts_pushBack (h : S.Inv) (hstage : S.stage t = .inside word none) (hnew : word ∉ S.words) :
    ∀ w n, (w, n) ∈ (S.pushBack word).list → n = S.done w + if word = w then 1 else 0 := by
  intro w n hmem
  have hlock : S.lock = some t := (h.mutex t).2 (by
    rw [hstage]
    trivial)
  rcases List.mem_append.1 hmem with hmem | hmem
  · have hcount := h.counts w n hmem
    rw [pending_of_inside hlock hstage] at hcount
    have hne : word ≠ w := by
      rintro rfl
      exact hnew (List.mem_map.2 ⟨_, hmem, rfl⟩)
    rw [if_neg hne]
    exact hcount
  · obtain ⟨rfl, rfl⟩ := Prod.mk.inj (List.mem_singleton.1 hmem)
    rw [if_pos rfl, (Nat.add_eq_zero_iff.1 (h.absent w hnew)).1]
    rfl

/-- **A step that meets the condition** keeps the invariant. -/
theorem Inv.step (h : S.Inv) (hmeets : S.Meets i) (hstep : Step S i S') : S'.Inv := by
  obtain ⟨t, act⟩ := i
  unfold Step next at hstep
  unfold Meets at hmeets
  dsimp only at hstep hmeets
  have hholds : ∀ {stage}, S.stage t = stage → ¬stage.holds → ¬(S.stage t).holds := fun heq hno => by
    rwa [heq]
  split at hstep
  · -- a null word
    exact Option.some.inj hstep ▸ h
  · rename_i word hstage
    refine Option.some.inj hstep ▸ h.goto (hholds hstage id) id fun w e heq => ?_
    cases heq
  · rename_i word hstage
    refine Option.some.inj hstep ▸ h.goto (hholds hstage id) id fun w e heq => ?_
    obtain ⟨rfl, hfound⟩ := Stage.lock.inj heq
    exact words_findWord hfound
  · rename_i word e hstage
    split at hstep
    · rename_i hfree
      exact Option.some.inj hstep ▸ h.take hstage hfree
    · cases hstep
  · rename_i word e granted hstage
    rw [hstage] at hmeets
    refine Option.some.inj hstep ▸ h.count hstage (fun j w hj => ?_) ?_ ?_ (counts_increment h hstage hmeets)
    · exact (congrArg (·[j]?) (words_increment S e)).trans hj
    · show (S.increment e).words.Nodup
      rw [words_increment]
      exact h.nodup
    · show word ∈ (S.increment e).words
      rw [words_increment]
      exact List.mem_iff_getElem?.2 ⟨e, h.found t word e (.inr hstage)⟩
  · rename_i word hstage
    rw [hstage] at hmeets
    have hwords : (S.pushBack word).words = S.words ++ [word] := List.map_append
    refine Option.some.inj hstep ▸ h.count hstage (fun j w hj => ?_) ?_ ?_
      (counts_pushBack h hstage hmeets.2)
    · show (S.pushBack word).words[j]? = some w
      rw [hwords, List.getElem?_append_left (List.getElem?_eq_some_iff.1 hj).1, hj]
    · show (S.pushBack word).words.Nodup
      rw [hwords]
      exact List.nodup_append.2 ⟨h.nodup, List.nodup_singleton _, fun a ha b hb heq => by
        rw [List.mem_singleton.1 hb] at heq
        exact hmeets.2 (heq ▸ ha)⟩
    · show word ∈ (S.pushBack word).words
      rw [hwords]
      exact List.mem_append_right _ (List.mem_singleton_self _)
  · rename_i word hstage
    rw [hstage] at hmeets
    cases hmeets.1
  · rename_i word e hstage
    exact Option.some.inj hstep ▸ h.leave hstage
  · cases hstep

/-- The invariant says that no update is lost. -/
theorem Inv.exact (h : S.Inv) : S.Exact := by
  have hfree : (∀ t, S.stage t = .idle) → S.lock = none := by
    intro hidle
    match hlock : S.lock with
    | none => rfl
    | some t =>
      have hholds := (h.mutex t).1 hlock
      rw [hidle t] at hholds
      exact absurd hholds id
  constructor
  · intro t hidle hlock
    have hholds := (h.mutex t).1 hlock
    rw [hidle] at hholds
    exact hholds
  · exact fun _ => h.nodup
  · intro hidle word n hmem
    have hcount := h.counts word n hmem
    rwa [pending_of_free (hfree hidle), Int.natCast_zero, Int.add_zero] at hcount
  · intro hidle word hmem
    exact (Nat.add_eq_zero_iff.1 (h.absent word hmem)).1

end Inv

/-- **The thread-safe word list** loses no update in any run, of any threads, calls and order of
steps, in which an element is inserted only for a word that is not in the list and with memory for
it, and a count is incremented only below `INT_MAX`. -/
theorem addWord_exact {S : Shared} (h : Leads Step Meets start S) : S.Exact :=
  (h.inv Inv.step start_inv).exact

/-- Two calls for one word, of two threads. -/
theorem addWord_exact_twice : ∃ S : Shared, S.list = [([97], 2)] ∧ S.Exact := by
  have hinit : Leads Step Meets start start := .refl
  have hfirst := hinit.next (i := (1, Act.call (some [97]))) trivial rfl
    |>.next (i := (1, Act.find)) trivial rfl
    |>.next (i := (1, Act.lock)) trivial rfl
    |>.next (i := (1, Act.enter true)) ⟨rfl, List.not_mem_nil⟩ rfl
  have hsecond := hfirst.next (i := (2, Act.call (some [97]))) trivial rfl
    |>.next (i := (2, Act.find)) trivial rfl
    |>.next (i := (1, Act.leave)) trivial rfl
    |>.next (i := (2, Act.lock)) trivial rfl
    |>.next (i := (2, Act.enter true)) (fun n hn => by
      obtain rfl := (Prod.mk.inj (Option.some.inj hn)).2
      decide) rfl
    |>.next (i := (2, Act.leave)) trivial rfl
  exact ⟨_, rfl, addWord_exact hsecond⟩

/-- Both threads search before one of them inserts, and the word is in the list twice. -/
theorem addWord_loses : ¬∀ S : Shared, Leads Step (fun _ _ => True) start S → S.Exact := by
  intro h
  have hinit : Leads Step (fun _ _ => True) start start := .refl
  have hfind := hinit.next (i := (1, Act.call (some [97]))) trivial rfl
    |>.next (i := (2, Act.call (some [97]))) trivial rfl
    |>.next (i := (1, Act.find)) trivial rfl
    |>.next (i := (2, Act.find)) trivial rfl
  have hfirst := hfind.next (i := (1, Act.lock)) trivial rfl
    |>.next (i := (1, Act.enter true)) trivial rfl
    |>.next (i := (1, Act.leave)) trivial rfl
  have hrun := hfirst.next (i := (2, Act.lock)) trivial rfl
    |>.next (i := (2, Act.enter true)) trivial rfl
    |>.next (i := (2, Act.leave)) trivial rfl
  have hnodup := (h _ hrun).nodup fun t => by
    by_cases h1 : t = 1
    · subst h1
      rfl
    · by_cases h2 : t = 2
      · subst h2
        rfl
      · simp [release, acquire, pushBack, stage_goto, h1, h2, start]
  exact absurd hnodup (by decide)

end Shared

end Words
end CS162

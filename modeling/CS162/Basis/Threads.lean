/-
# Threads that share a state under locks

A thread's program is given by `code`: which actions a program point allows in
a shared state.  An action takes a lock, gives one back, or runs the statements
between two lock operations as one step on the shared state.  `Step` lets any
thread take its next action, a lock being taken only when it is free; `Reach` is
any interleaving of any number of threads.

`Discipline` says which locks are held at which program point.  It makes locks
exclusive (`Reach.holds_iff`) and gives the rule `Reach.invariant`: a global
invariant `I`, what a thread knows at its program point `K`, and for each lock
what is true of the shared state while nobody holds it, `R`.  A thread's own
statements have to keep `I`, its knowledge, the invariants of the locks it does
not hold and the knowledge of threads that hold none of its locks.
-/

import Mathlib.Logic.Function.Basic
import Mathlib.Tactic.Common

namespace CS162
namespace Basis

/-- One action of a thread and the program point after it. -/
inductive Act (L P S : Type) where
  /-- Wait for the lock to be free and take it. -/
  | acquire (l : L) (q : P)
  /-- Give the lock back. -/
  | release (l : L) (q : P)
  /-- Statements on the shared state, in one step. -/
  | run (s : S) (q : P)

/-- Program points of all threads, owners of all locks, and the shared state. -/
structure Config (T L P S : Type) where
  pc : T → P
  owner : L → Option T
  shared : S

variable {T L P S : Type} [DecidableEq T] [DecidableEq L]

/-- Thread `t` takes its next action. -/
inductive Step (code : P → S → Act L P S → Prop) : Config T L P S → Config T L P S → Prop where
  | acquire {c : Config T L P S} (t : T) (l : L) (q : P) :
      code (c.pc t) c.shared (.acquire l q) → c.owner l = none →
      Step code c ⟨Function.update c.pc t q, Function.update c.owner l (some t), c.shared⟩
  | release {c : Config T L P S} (t : T) (l : L) (q : P) :
      code (c.pc t) c.shared (.release l q) →
      Step code c ⟨Function.update c.pc t q, Function.update c.owner l none, c.shared⟩
  | run {c : Config T L P S} (t : T) (s : S) (q : P) :
      code (c.pc t) c.shared (.run s q) →
      Step code c ⟨Function.update c.pc t q, c.owner, s⟩

/-- `c'` is reached from `c` by steps of the threads in some order. -/
inductive Reach (code : P → S → Act L P S → Prop) (c : Config T L P S) :
    Config T L P S → Prop where
  | refl : Reach code c c
  | tail {c' c'' : Config T L P S} : Reach code c c' → Step code c' c'' → Reach code c c''

theorem Reach.trans {code : P → S → Act L P S → Prop} {c c' c'' : Config T L P S}
    (h : Reach code c c') (h' : Reach code c' c'') : Reach code c c'' := by
  induction h' with
  | refl => exact h
  | tail _ hs ih => exact ih.tail hs

/-- A run is one of every program that allows its actions. -/
theorem Reach.mono {code code' : P → S → Act L P S → Prop} (h : ∀ p s a, code p s a → code' p s a)
    {c c' : Config T L P S} (hr : Reach code c c') : Reach code' c c' := by
  induction hr with
  | refl => exact .refl
  | tail _ hs ih =>
    refine ih.tail ?_
    cases hs with
    | acquire t l q hc hfree => exact .acquire t l q (h _ _ _ hc) hfree
    | release t l q hc => exact .release t l q (h _ _ _ hc)
    | run t s q hc => exact .run t s q (h _ _ _ hc)

/-- `holds p l`: a thread at program point `p` holds the lock `l`. -/
structure Discipline (code : P → S → Act L P S → Prop) (holds : P → L → Prop) : Prop where
  acquire : ∀ p s l q, code p s (.acquire l q) → ∀ l', holds q l' ↔ l' = l ∨ holds p l'
  release : ∀ p s l q, code p s (.release l q) → holds p l ∧ ∀ l', holds q l' ↔ l' ≠ l ∧ holds p l'
  run : ∀ p s s' q, code p s (.run s' q) → ∀ l, holds q l ↔ holds p l

variable {code : P → S → Act L P S → Prop} {holds : P → L → Prop}

/-- The owners recorded are the threads at points that hold the lock. -/
def Owned (holds : P → L → Prop) (c : Config T L P S) : Prop :=
  ∀ t l, holds (c.pc t) l ↔ c.owner l = some t

omit [DecidableEq T] [DecidableEq L] in
/-- A lock has one holder. -/
theorem Owned.exclusive {c : Config T L P S} (h : Owned holds c) {t u : T} (htu : u ≠ t) (l : L) :
    ¬(holds (c.pc t) l ∧ holds (c.pc u) l) := by
  rintro ⟨ht, hu⟩
  rw [h] at ht hu
  exact htu (Option.some.inj (hu.symm.trans ht))

/-- The owners recorded stay the threads at such points. -/
theorem Owned.step (hd : Discipline code holds) {c c' : Config T L P S} (h : Owned holds c)
    (hs : Step code c c') : Owned holds c' := by
  intro u l'
  cases hs with
  | acquire t l q hc hfree =>
    have hq := hd.acquire _ _ _ _ hc l'
    by_cases hu : u = t <;> by_cases hl : l' = l
    · subst hu hl
      simp [hq]
    · subst hu
      simpa [hl] using hq.trans (by simp [hl, h u l'])
    · subst hl
      have hno : ¬holds (c.pc u) l' := by
        rw [h, hfree]
        simp
      simp [hu, hno, Ne.symm hu]
    · simp [hu, hl, h u l']
  | release t l q hc =>
    obtain ⟨hheld, hq⟩ := hd.release _ _ _ _ hc
    by_cases hu : u = t <;> by_cases hl : l' = l
    · subst hu hl
      simp [hq]
    · subst hu
      simpa [hl] using (hq l').trans (by simp [hl, h u l'])
    · subst hl
      have hno : ¬holds (c.pc u) l' := fun hu' => h.exclusive hu l' ⟨hheld, hu'⟩
      simp [hu, hno]
    · simp [hu, hl, h u l']
  | run t s q hc =>
    have hq := hd.run _ _ _ _ hc l'
    by_cases hu : u = t
    · subst hu
      simpa using hq.trans (h u l')
    · simp [hu, h u l']

/-- What has to be shown of one thread's actions: `I` is global, `R l` is true
while nobody holds `l`, and `K p` is what a thread at `p` knows. -/
structure Proof (code : P → S → Act L P S → Prop) (holds : P → L → Prop) (I : S → Prop)
    (R : L → S → Prop) (K : P → S → Prop) : Prop where
  acquire : ∀ p s l q, I s → K p s → R l s → code p s (.acquire l q) → K q s
  release : ∀ p s l q, I s → K p s → code p s (.release l q) → R l s ∧ K q s
  run : ∀ p s s' q, I s → K p s → code p s (.run s' q) →
    I s' ∧ K q s' ∧ (∀ l, ¬holds p l → R l s → R l s') ∧
      ∀ p', (∀ l, ¬(holds p l ∧ holds p' l)) → K p' s → K p' s'

variable {I : S → Prop} {R : L → S → Prop} {K : P → S → Prop}

/-- The invariant of a configuration. -/
structure Holding (holds : P → L → Prop) (I : S → Prop) (R : L → S → Prop) (K : P → S → Prop)
    (c : Config T L P S) : Prop where
  owned : Owned holds c
  global : I c.shared
  known : ∀ t, K (c.pc t) c.shared
  free : ∀ l, c.owner l = none → R l c.shared

/-- **One step keeps the invariant.** -/
theorem Holding.step (hd : Discipline code holds) (hp : Proof code holds I R K)
    {c c' : Config T L P S} (h : Holding holds I R K c) (hs : Step code c c') :
    Holding holds I R K c' := by
  have howned := h.owned.step hd hs
  cases hs with
  | acquire t l q hc hfree =>
    refine ⟨howned, h.global, fun u => ?_, fun l' hl' => ?_⟩
    · by_cases hu : u = t
      · subst hu
        simpa using hp.acquire _ _ _ _ h.global (h.known u) (h.free l hfree) hc
      · simpa [hu] using h.known u
    · by_cases hl : l' = l
      · subst hl
        simp at hl'
      · exact h.free l' (by simpa [hl] using hl')
  | release t l q hc =>
    obtain ⟨hR, hK⟩ := hp.release _ _ _ _ h.global (h.known t) hc
    refine ⟨howned, h.global, fun u => ?_, fun l' hl' => ?_⟩
    · by_cases hu : u = t
      · subst hu
        simpa using hK
      · simpa [hu] using h.known u
    · by_cases hl : l' = l
      · exact hl ▸ hR
      · exact h.free l' (by simpa [hl] using hl')
  | run t s q hc =>
    obtain ⟨hI, hK, hfree, hother⟩ := hp.run _ _ _ _ h.global (h.known t) hc
    refine ⟨howned, hI, fun u => ?_, fun l hl => ?_⟩
    · by_cases hu : u = t
      · subst hu
        simpa using hK
      · simpa [hu] using hother _ (fun l => h.owned.exclusive hu l) (h.known u)
    · refine hfree l (fun hheld => ?_) (h.free l hl)
      rw [h.owned, hl] at hheld
      simp at hheld

/-- **The invariant holds in every state reached, in any interleaving.** -/
theorem Reach.invariant (hd : Discipline code holds) (hp : Proof code holds I R K)
    {c c' : Config T L P S} (h : Holding holds I R K c) (hr : Reach code c c') :
    Holding holds I R K c' := by
  induction hr with
  | refl => exact h
  | tail _ hs ih => exact ih.step hd hp hs

/-! ### One thread's part of a run -/

section Solo

variable {g : T → P} {o : L → Option T} {s s' : S} {t : T} {p q p' q' : P} {l : L}

/-- The thread runs its statements. -/
theorem Reach.ran (h : code p s (.run s' q)) :
    Reach code ⟨Function.update g t p, o, s⟩ ⟨Function.update g t q, o, s'⟩ := by
  have hs : Step code ⟨Function.update g t p, o, s⟩
      ⟨Function.update (Function.update g t p) t q, o, s'⟩ := .run t s' q (by simpa using h)
  rw [Function.update_idem] at hs
  exact Reach.refl.tail hs

/-- The thread takes a free lock. -/
theorem Reach.acquired (h : code p s (.acquire l q)) (hl : o l = none) :
    Reach code ⟨Function.update g t p, o, s⟩
      ⟨Function.update g t q, Function.update o l (some t), s⟩ := by
  have hs : Step code ⟨Function.update g t p, o, s⟩
      ⟨Function.update (Function.update g t p) t q, Function.update o l (some t), s⟩ :=
    .acquire t l q (by simpa using h) hl
  rw [Function.update_idem] at hs
  exact Reach.refl.tail hs

/-- The thread gives a lock back. -/
theorem Reach.released (h : code p s (.release l q)) :
    Reach code ⟨Function.update g t p, o, s⟩
      ⟨Function.update g t q, Function.update o l none, s⟩ := by
  have hs : Step code ⟨Function.update g t p, o, s⟩
      ⟨Function.update (Function.update g t p) t q, Function.update o l none, s⟩ :=
    .release t l q (by simpa using h)
  rw [Function.update_idem] at hs
  exact Reach.refl.tail hs

/-- **A critical section**: a free lock is taken, kept and given back. -/
theorem Reach.locked (hl : o l = none) (hacq : code p s (.acquire l q))
    (hbody : Reach code ⟨Function.update g t q, Function.update o l (some t), s⟩
      ⟨Function.update g t q', Function.update o l (some t), s'⟩)
    (hrel : code q' s' (.release l p')) :
    Reach code ⟨Function.update g t p, o, s⟩ ⟨Function.update g t p', o, s'⟩ := by
  have hend : Function.update (Function.update o l (some t)) l none = o := by
    rw [Function.update_idem, ← hl, Function.update_eq_self]
  have hout : Reach code ⟨Function.update g t q', Function.update o l (some t), s'⟩
      ⟨Function.update g t p', Function.update (Function.update o l (some t)) l none, s'⟩ :=
    .released hrel
  rw [hend] at hout
  exact ((Reach.acquired hacq hl).trans hbody).trans hout

end Solo

end Basis
end CS162

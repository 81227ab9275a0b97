/-
# Programs over a state that may stop the machine

A kernel function reads and changes the machine state and either returns a
value or never returns: a failed assertion, an access outside an object and an
endless loop all leave no state behind.  `Prog σ α` is the state monad over
`Option` for such functions, `none` being "does not return".

`Returns x s Q` is the total-correctness reading of one call: started in `s`,
the program `x` returns, and `Q` holds of what it returns and of the state it
leaves.  `returns_pure`, `returns_get_bind`, `returns_set_bind` and
`returns_modify_bind` execute a program's own steps, `Returns.seq` uses what is
known of a call, so a proof about a function follows its text.  `Ensures x s Q`
is the partial-correctness reading, for calls that may not return.
`Preserves R x` says of every start that the state left is related to it by `R`;
over a reflexive and transitive `R` it goes through a program step by step.
`Keeps I x Q` says that `x` keeps an invariant, and what it returns.  `forRounds f n` is a loop
that counts, with `returns_forRounds` for its invariant.
-/

import Mathlib.Tactic.Common

namespace CS162
namespace Basis

/-- A program over the state `σ` returning an `α`; `none` when it does not return. -/
abbrev Prog (σ α : Type) := StateT σ Option α

/-- The program that never returns: a panic, or an access outside an object. -/
def halt {σ α : Type} : Prog σ α := fun _ => none

/-- Started in `s`, the program returns, and `Q` holds of its value and of the
state it leaves. -/
def Returns {σ α : Type} (x : Prog σ α) (s : σ) (Q : α → σ → Prop) : Prop :=
  ∃ a s', x.run s = some (a, s') ∧ Q a s'

variable {σ α β : Type} {x : Prog σ α} {f : α → Prog σ β} {s : σ}

@[simp] theorem returns_pure {a : α} {Q : α → σ → Prop} :
    Returns (pure a : Prog σ α) s Q ↔ Q a s := by
  constructor
  · rintro ⟨b, s', h, hQ⟩
    obtain ⟨rfl, rfl⟩ := Prod.mk.inj (Option.some.inj h)
    exact hQ
  · exact fun h => ⟨a, s, rfl, h⟩

@[simp] theorem returns_get_bind {f : σ → Prog σ β} {Q : β → σ → Prop} :
    Returns (get >>= f) s Q ↔ Returns (f s) s Q := Iff.rfl

@[simp] theorem returns_set_bind {s₁ : σ} {f : PUnit → Prog σ β} {Q : β → σ → Prop} :
    Returns (set s₁ >>= f) s Q ↔ Returns (f ⟨⟩) s₁ Q := Iff.rfl

@[simp] theorem returns_modify_bind {g : σ → σ} {f : PUnit → Prog σ β} {Q : β → σ → Prop} :
    Returns (modify g >>= f) s Q ↔ Returns (f ⟨⟩) (g s) Q := Iff.rfl

@[simp] theorem returns_modify {g : σ → σ} {Q : PUnit → σ → Prop} :
    Returns (modify g) s Q ↔ Q ⟨⟩ (g s) := by
  constructor
  · rintro ⟨b, s', h, hQ⟩
    obtain ⟨rfl, rfl⟩ := Prod.mk.inj (Option.some.inj h)
    exact hQ
  · exact fun h => ⟨⟨⟩, g s, rfl, h⟩

@[simp] theorem returns_pure_bind {a : α} {Q : β → σ → Prop} :
    Returns (pure a >>= f) s Q ↔ Returns (f a) s Q := Iff.rfl

@[simp] theorem not_returns_halt {Q : α → σ → Prop} : ¬Returns (halt : Prog σ α) s Q := by
  rintro ⟨a, s', h, -⟩
  cases h

@[simp] theorem not_returns_halt_bind {Q : β → σ → Prop} : ¬Returns (halt >>= f) s Q := by
  rintro ⟨a, s', h, -⟩
  cases h

/-- **Sequencing.**  Run the first program, then the second on what it returned. -/
theorem Returns.bind {Q : β → σ → Prop}
    (h : Returns x s fun a s' => Returns (f a) s' Q) : Returns (x >>= f) s Q := by
  obtain ⟨a, s', hx, b, s'', hf, hQ⟩ := h
  refine ⟨b, s'', ?_, hQ⟩
  rw [StateT.run_bind, hx]
  exact hf

/-- **Consequence.** -/
theorem Returns.mono {Q Q' : α → σ → Prop} (h : Returns x s Q)
    (hQ : ∀ a s', Q a s' → Q' a s') : Returns x s Q' := by
  obtain ⟨a, s', hx, h⟩ := h
  exact ⟨a, s', hx, hQ a s' h⟩

/-- **Using a call**: what is known of the first program is known when the
second starts. -/
theorem Returns.seq {P : α → σ → Prop} {Q : β → σ → Prop} (h : Returns x s P)
    (hf : ∀ a s', P a s' → Returns (f a) s' Q) : Returns (x >>= f) s Q :=
  (h.mono hf).bind

/-- A sequence whose second program always returns, returns if and only if the first does. -/
theorem returns_bind_iff (hf : ∀ a s', Returns (f a) s' fun _ _ => True) :
    Returns (x >>= f) s (fun _ _ => True) ↔ Returns x s fun _ _ => True := by
  refine ⟨?_, fun h => h.seq fun a s' _ => hf a s'⟩
  rintro ⟨b, t, hrun, -⟩
  rw [StateT.run_bind] at hrun
  obtain ⟨⟨a, s'⟩, hx, -⟩ := Option.bind_eq_some_iff.1 hrun
  exact ⟨a, s', hx, trivial⟩

/-- What is followed by a program that never returns does not return. -/
theorem bind_halt (x : Prog σ α) : (x >>= fun _ => (halt : Prog σ β)) = halt := by
  funext s
  change (x s).bind (fun _ => none) = none
  cases x s <;> rfl

/-- If the program returns, `Q` holds of its value and of the state it leaves. -/
def Ensures {σ α : Type} (x : Prog σ α) (s : σ) (Q : α → σ → Prop) : Prop :=
  ∀ a s', x.run s = some (a, s') → Q a s'

theorem ensures_pure {a : α} {Q : α → σ → Prop} (h : Q a s) : Ensures (pure a : Prog σ α) s Q := by
  intro b s' hrun
  obtain ⟨rfl, rfl⟩ := Prod.mk.inj (Option.some.inj hrun)
  exact h

theorem ensures_halt {Q : α → σ → Prop} : Ensures (halt : Prog σ α) s Q := by
  intro a s' hrun
  cases hrun

@[simp] theorem ensures_get_bind {f : σ → Prog σ β} {Q : β → σ → Prop} :
    Ensures (get >>= f) s Q ↔ Ensures (f s) s Q := Iff.rfl

@[simp] theorem ensures_modify_bind {g : σ → σ} {f : PUnit → Prog σ β} {Q : β → σ → Prop} :
    Ensures (modify g >>= f) s Q ↔ Ensures (f ⟨⟩) (g s) Q := Iff.rfl

/-- Sequencing of calls that may not return. -/
theorem Ensures.seq {P : α → σ → Prop} {Q : β → σ → Prop} (h : Ensures x s P)
    (hf : ∀ a s', P a s' → Ensures (f a) s' Q) : Ensures (x >>= f) s Q := by
  intro b s' hrun
  rw [StateT.run_bind] at hrun
  cases hx : x.run s with
  | none =>
    rw [hx] at hrun
    cases hrun
  | some r =>
    rw [hx] at hrun
    exact hf r.1 r.2 (h _ _ hx) b s' hrun

/-- Only the last program's own value matters. -/
theorem ensures_bind_pure {a : β} {Q : β → σ → Prop} (h : ∀ s', Q a s') :
    Ensures (x >>= fun _ => pure a) s Q :=
  Ensures.seq (P := fun _ _ => True) (fun _ _ _ => trivial) fun _ s' _ => ensures_pure (h s')

/-- A program that returns, returns one thing. -/
theorem Returns.of_run {Q : α → σ → Prop} (h : Returns x s Q) {a : α} {s' : σ}
    (hrun : x.run s = some (a, s')) : Q a s' := by
  obtain ⟨b, s'', hx, hQ⟩ := h
  obtain ⟨rfl, rfl⟩ := Prod.mk.inj (Option.some.inj (hx.symm.trans hrun))
  exact hQ

/-- What is known of a call in two ways. -/
theorem Returns.and {P Q : α → σ → Prop} (h : Returns x s P) (h' : Returns x s Q) :
    Returns x s fun a s' => P a s' ∧ Q a s' := by
  obtain ⟨a, s', hrun, hP⟩ := h
  exact ⟨a, s', hrun, hP, h'.of_run hrun⟩

theorem Returns.ensures {Q : α → σ → Prop} (h : Returns x s Q) : Ensures x s Q :=
  fun _ _ hrun => h.of_run hrun

/-- After a first program that is known to return. -/
theorem run_bind_of_run {a : α} {t : σ} (h : x.run s = some (a, t)) :
    (x >>= f).run s = (f a).run t := by
  rw [StateT.run_bind, h]
  rfl

/-- If a sequence returned, both its programs did. -/
theorem run_bind_cases {r : β × σ} (h : (x >>= f).run s = some r) :
    ∃ a s', x.run s = some (a, s') ∧ (f a).run s' = some r := by
  rw [StateT.run_bind] at h
  obtain ⟨⟨a, s'⟩, hx, hf⟩ := Option.bind_eq_some_iff.1 h
  exact ⟨a, s', hx, hf⟩

theorem returns_bind_of_run {a : α} {s' : σ} {Q : β → σ → Prop} (h : x.run s = some (a, s')) :
    Returns (x >>= f) s Q ↔ Returns (f a) s' Q := by
  unfold Returns
  rw [run_bind_of_run h]

theorem returns_bind_congr {y : Prog σ α} {Q : β → σ → Prop} (h : x.run s = y.run s) :
    Returns (x >>= f) s Q ↔ Returns (y >>= f) s Q := by
  unfold Returns
  rw [StateT.run_bind, StateT.run_bind, h]

theorem ensures_bind_of_run {a : α} {s' : σ} {Q : β → σ → Prop} (h : x.run s = some (a, s')) :
    Ensures (x >>= f) s Q ↔ Ensures (f a) s' Q := by
  unfold Ensures
  rw [run_bind_of_run h]

/-! ### What a program leaves alone -/

/-- The state the program leaves is related by `R` to the one it starts in. -/
def Preserves (R : σ → σ → Prop) (x : Prog σ α) : Prop := ∀ s, Ensures x s fun _ t => R s t

section Preserves

variable {R : σ → σ → Prop}

theorem preserves_halt : Preserves R (halt : Prog σ α) := by
  intro s a t hrun
  cases hrun

theorem preserves_modify {g : σ → σ} (h : ∀ s, R s (g s)) : Preserves R (modify g) := by
  intro s a t hrun
  cases hrun
  exact h s

theorem preserves_pure (hrefl : ∀ s, R s s) {a : α} : Preserves R (pure a : Prog σ α) :=
  fun s => ensures_pure (hrefl s)

theorem preserves_get_bind {f : σ → Prog σ β} (h : ∀ s, Ensures (f s) s fun _ t => R s t) :
    Preserves R (get >>= f) :=
  fun s => h s

theorem ensures_set_bind {s₁ : σ} {f : PUnit → Prog σ β} {Q : β → σ → Prop}
    (h : Ensures (f ⟨⟩) s₁ Q) : Ensures (set s₁ >>= f) s Q :=
  h

/-- **Sequencing.** -/
theorem Preserves.bind (htrans : ∀ {s t u}, R s t → R t u → R s u) (h : Preserves R x)
    (hf : ∀ a, Preserves R (f a)) : Preserves R (x >>= f) := by
  intro s b u hrun
  obtain ⟨a, t, hx, hrun⟩ := run_bind_cases hrun
  exact htrans (h s a t hx) (hf a t b u hrun)

end Preserves

/-! ### Loops that count -/

/-- The rounds `0`, `1`, …, `n - 1` of a loop. -/
def forRounds {σ : Type} (f : ℕ → Prog σ Unit) : ℕ → Prog σ Unit
  | 0 => pure ()
  | n + 1 => do
    forRounds f n
    f n

/-- **A loop's invariant**, by the number of rounds that are over. -/
theorem returns_forRounds {f : ℕ → Prog σ Unit} {I : ℕ → σ → Prop} {n : ℕ} (hs : I 0 s)
    (hround : ∀ i < n, ∀ s, I i s → Returns (f i) s fun _ t => I (i + 1) t) :
    Returns (forRounds f n) s fun _ t => I n t := by
  induction n with
  | zero => exact returns_pure.2 hs
  | succ n ih =>
    exact (ih fun i hi => hround i (Nat.lt_succ_of_lt hi)).seq fun _ t ht =>
      hround n (Nat.lt_succ_self n) t ht

end Basis
end CS162

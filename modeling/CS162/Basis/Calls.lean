/-
# Programs that may end a process or stop the machine

What a process asks of the kernel may end the process, and a failed assertion or an
access through a null pointer stops the machine; both leave a state behind.
`Call σ α` is `Prog σ` with these two ways to end, so `none` remains for a call of
other code that does not return.

`Ends x s Q` says that `x`, started in `s`, ends, and `Q` holds of how it ends and of
the state left; `Stuck x s` says that it does not end.  `Allows x s Q` says that `Q` holds
if it ends.  `onPart` runs a call on a part of the state.
-/

import CS162.Basis.Program

namespace CS162
namespace Basis

/-- How a call ends other than by returning. -/
inductive Stop where
  | exit
  | panic
  deriving DecidableEq

abbrev Call (σ α : Type) := ExceptT Stop (Prog σ) α

/-- Ending the process, or stopping the machine. -/
def stop {σ α : Type} (e : Stop) : Call σ α := throw e

/-- Other code that is called. -/
def callOut {σ α : Type} (x : Prog σ α) : Call σ α := ExceptT.lift x

/-- The call ends, and `Q` holds then. -/
def Ends {σ α : Type} (x : Call σ α) (s : σ) (Q : Except Stop α → σ → Prop) : Prop :=
  Returns (ExceptT.run x) s Q

/-- The call does not end. -/
def Stuck {σ α : Type} (x : Call σ α) (s : σ) : Prop :=
  Ensures (ExceptT.run x) s fun _ _ => False

variable {σ α β : Type} {x : Call σ α} {f : α → Call σ β} {s : σ}

@[simp] theorem ends_pure {a : α} {Q : Except Stop α → σ → Prop} :
    Ends (pure a : Call σ α) s Q ↔ Q (.ok a) s :=
  returns_pure

@[simp] theorem ends_stop {e : Stop} {Q : Except Stop α → σ → Prop} :
    Ends (stop e : Call σ α) s Q ↔ Q (.error e) s :=
  returns_pure

/-- What follows a stop does not run. -/
@[simp] theorem ends_stop_bind {e : Stop} {Q : Except Stop β → σ → Prop} :
    Ends (stop e >>= f) s Q ↔ Q (.error e) s :=
  returns_pure

@[simp] theorem ends_get_bind {f : σ → Call σ β} {Q : Except Stop β → σ → Prop} :
    Ends (get >>= f) s Q ↔ Ends (f s) s Q := Iff.rfl

@[simp] theorem ends_set_bind {s₁ : σ} {f : PUnit → Call σ β} {Q : Except Stop β → σ → Prop} :
    Ends (set s₁ >>= f) s Q ↔ Ends (f ⟨⟩) s₁ Q := Iff.rfl

@[simp] theorem ends_modify {g : σ → σ} {Q : Except Stop PUnit → σ → Prop} :
    Ends (modify g) s Q ↔ Q (.ok ⟨⟩) (g s) := by
  constructor
  · rintro ⟨b, s', h, hQ⟩
    obtain ⟨rfl, rfl⟩ := Prod.mk.inj (Option.some.inj h)
    exact hQ
  · exact fun h => ⟨.ok ⟨⟩, g s, rfl, h⟩

@[simp] theorem ends_modify_bind {g : σ → σ} {f : PUnit → Call σ β} {Q : Except Stop β → σ → Prop} :
    Ends (modify g >>= f) s Q ↔ Ends (f ⟨⟩) (g s) Q := Iff.rfl

/-- **Consequence.** -/
theorem Ends.mono {Q Q' : Except Stop α → σ → Prop} (h : Ends x s Q)
    (hQ : ∀ r s', Q r s' → Q' r s') : Ends x s Q' :=
  Returns.mono h hQ

/-- **Using a call**: a call that stops ends the rest. -/
theorem Ends.seq {P : Except Stop α → σ → Prop} {Q : Except Stop β → σ → Prop} (h : Ends x s P)
    (hok : ∀ a s', P (.ok a) s' → Ends (f a) s' Q)
    (hstop : ∀ e s', P (.error e) s' → Q (.error e) s') : Ends (x >>= f) s Q := by
  refine Returns.seq h fun r s' hr => ?_
  cases r with
  | ok a => exact hok a s' hr
  | error e => exact returns_pure.2 (hstop e s' hr)

/-- Other code that returns. -/
theorem ends_callOut {x : Prog σ α} {Q : Except Stop α → σ → Prop}
    (h : Returns x s fun a s' => Q (.ok a) s') : Ends (callOut x) s Q := by
  refine Returns.bind (f := fun a => pure (Except.ok a)) (h.mono fun a s' hQ => ?_)
  exact returns_pure.2 hQ

theorem Stuck.not_ends {Q : Except Stop α → σ → Prop} (h : Stuck x s) : ¬Ends x s Q := by
  rintro ⟨r, s', hrun, -⟩
  exact h r s' hrun

/-- What follows a call that does not end does not run. -/
theorem Stuck.bind (h : Stuck x s) : Stuck (x >>= f) s :=
  Ensures.seq h fun _ _ hfalse => hfalse.elim

/-- A call that goes on into one that does not end. -/
theorem Ends.stuck {P : Except Stop α → σ → Prop} (h : Ends x s P)
    (hok : ∀ a s', P (.ok a) s' → Stuck (f a) s') (hstop : ∀ e s', ¬P (.error e) s') :
    Stuck (x >>= f) s := by
  refine Ensures.seq (Returns.ensures h) fun r s' hr => ?_
  cases r with
  | ok a => exact hok a s' hr
  | error e => exact absurd hr (hstop e s')

/-- Other code that does not return. -/
theorem stuck_callOut {x : Prog σ α} (h : Ensures x s fun _ _ => False) :
    Stuck (callOut x) s := by
  intro r s' hrun
  obtain ⟨a, s'', hx, -⟩ := run_bind_cases (f := fun a => pure (Except.ok a)) hrun
  exact h a s'' hx

/-! ### Calls that may not end -/

/-- If the call ends, `Q` holds then. -/
def Allows {σ α : Type} (x : Call σ α) (s : σ) (Q : Except Stop α → σ → Prop) : Prop :=
  Ensures (ExceptT.run x) s Q

theorem allows_pure {a : α} {Q : Except Stop α → σ → Prop} (h : Q (.ok a) s) :
    Allows (pure a : Call σ α) s Q :=
  ensures_pure h

theorem Ends.allows {Q : Except Stop α → σ → Prop} (h : Ends x s Q) : Allows x s Q :=
  Returns.ensures h

theorem Allows.mono {Q Q' : Except Stop α → σ → Prop} (h : Allows x s Q)
    (hQ : ∀ r s', Q r s' → Q' r s') : Allows x s Q' :=
  fun r s' hrun => hQ r s' (h r s' hrun)

/-- Using a call that may not end. -/
theorem Allows.seq {P : Except Stop α → σ → Prop} {Q : Except Stop β → σ → Prop}
    (h : Allows x s P) (hok : ∀ a s', P (.ok a) s' → Allows (f a) s' Q)
    (hstop : ∀ e s', P (.error e) s' → Q (.error e) s') : Allows (x >>= f) s Q := by
  refine Ensures.seq h fun r s' hr => ?_
  cases r with
  | ok a => exact hok a s' hr
  | error e => exact ensures_pure (hstop e s' hr)

/-- Other code that may not return. -/
theorem allows_callOut {x : Prog σ α} {Q : Except Stop α → σ → Prop}
    (h : Ensures x s fun a s' => Q (.ok a) s') : Allows (callOut x) s Q := by
  intro r s' hrun
  obtain ⟨a, s'', hx, hr⟩ := run_bind_cases (f := fun a => pure (Except.ok a)) hrun
  obtain ⟨rfl, rfl⟩ := Prod.mk.inj (Option.some.inj hr)
  exact h a s'' hx

/-- A call that only ends wrongly. -/
theorem Allows.not_ends {Q : Except Stop α → σ → Prop} (h : Allows x s fun r s' => ¬Q r s') :
    ¬Ends x s Q := by
  rintro ⟨r, s', hrun, hQ⟩
  exact h r s' hrun hQ

/-! ### Parts of a state -/

section Part

variable {τ : Type} (part : τ → σ) (change : τ → σ → τ)

/-- A call on a part of the state. -/
def onPart (x : Call σ α) : Call τ α :=
  ExceptT.mk fun t => ((ExceptT.run x).run (part t)).map fun r => (r.1, change t r.2)

theorem Ends.onPart {t : τ} {Q : Except Stop α → τ → Prop}
    (h : Ends x (part t) fun r s' => Q r (change t s')) : Ends (onPart part change x) t Q := by
  obtain ⟨r, s', hrun, hQ⟩ := h
  refine ⟨r, change t s', ?_, hQ⟩
  show ((ExceptT.run x).run (part t)).map _ = _
  rw [hrun]
  rfl

theorem Allows.onPart {t : τ} {Q : Except Stop α → τ → Prop}
    (h : Allows x (part t) fun r s' => Q r (change t s')) : Allows (onPart part change x) t Q := by
  intro r t' hrun
  obtain ⟨r', hx, hr'⟩ := Option.map_eq_some_iff.1 hrun
  obtain ⟨rfl, rfl⟩ := Prod.mk.inj hr'
  exact h r'.1 r'.2 hx

end Part

end Basis
end CS162

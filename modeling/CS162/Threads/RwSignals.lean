/-
# Signals of the readers-writers lock

`projects1-3/src/threads/synch.c`, lines 297-319 and 378-389: `rw_lock_release`
calls `cond_signal` when `WW` is positive, and `cond_signal` pops the waiters
without a test.  `WW` counts a writer until it runs again after its signal, the
waiters until the signal.

The two agree at the signals of a run in which writers are let in in turn
(`condSignal_finds`).
-/

import CS162.Threads.RwLock

namespace CS162
namespace Threads

open CS162.Basis

variable {T : Type} [DecidableEq T] [Fintype T]

/-- No thread is at a `cond_signal` on empty waiters.  `cond_broadcast` tests
them first. -/
def RwState.SignalsSomeone (σ : RwState T) : Prop :=
  ∀ t, σ.point t = .signalling → σ.waiters .writer ≠ []

/-- If the next step of `t` counts it out and goes on to `cond_signal`, then one
of the waiting writers has not been signalled. -/
def RwState.WriterLeft (σ : RwState T) (t : T) : Prop :=
  ∀ m, σ.point t = .dropping m → (σ.uncount m).afterDrop m = .signalling →
    ∃ u, σ.point u = .waiting .writer ∧ σ.sema u = 0

/-- If the next step of `t` lets it in as a writer, then no signalled writer is on
its way. -/
def RwState.InTurn (σ : RwState T) (t : T) : Prop :=
  σ.point t = .testing .writer → σ.blocked .writer = false → ∀ u, ¬σ.coming .writer u

/-- The `n` first steps of a run: step `i` is one of thread `who i`, from `run i`. -/
structure RwTrace (k : Kernel) (n : ℕ) (run : ℕ → RwState T) (who : ℕ → T) : Prop where
  init : run 0 = .init
  step : ∀ i < n, RwStep k (who i) (run i) (run (i + 1))

omit [Fintype T] in
theorem RwTrace.reach {k : Kernel} {n : ℕ} {run : ℕ → RwState T} {who : ℕ → T}
    (h : RwTrace k n run who) : ∀ i ≤ n, RwReach k (run i)
  | 0, _ => h.init ▸ .init
  | i + 1, hi => (h.reach i (Nat.le_of_succ_le hi)).step (h.step i hi)

omit [DecidableEq T] in
/-- While a thread holds the guard, the threads on the waiters are those in their
`sema_down` that have not been signalled. -/
theorem RwInv.mem_waiters {σ : RwState T} (h : RwInv σ) {t u : T}
    (ht : (σ.point t).guarded = true) (hut : ∀ m, σ.point t ≠ .parking m) {m : RwMode} :
    u ∈ σ.waiters m ↔ σ.point u = .waiting m ∧ σ.sema u = 0 := by
  rw [h.queued.mem]
  constructor
  · rintro ⟨hstopped, hsema⟩
    refine ⟨?_, hsema⟩
    cases hp : σ.point u with
    | parking m' =>
      have hu : u = t := h.guarded.eq ht (by rw [hp]; rfl)
      exact absurd (hu ▸ hp) (hut m')
    | waiting m' => simp_all [RwPoint.stopped]
    | _ => simp [hp, RwPoint.stopped] at hstopped
  · rintro ⟨hpoint, hsema⟩
    exact ⟨by simp [hpoint, RwPoint.stopped], hsema⟩

/-- A thread comes to a `cond_signal` from its count, and then the guard keeps
the waiters as they are. -/
theorem RwStep.signalling {k : Kernel} {σ σ' : RwState T} {t u : T} (hs : RwStep k t σ σ')
    (h : RwInv σ) (hu : σ'.point u = .signalling) :
    σ'.waiters = σ.waiters ∧ (σ.point u = .signalling ∨
      u = t ∧ ∃ m, σ.point t = .dropping m ∧ (σ.uncount m).afterDrop m = .signalling) := by
  by_cases hut : u = t
  · subst hut
    cases hs with
    | @drop m hpoint =>
      exact ⟨rfl, .inr ⟨rfl, m, hpoint, by simpa [RwState.goto] using hu⟩⟩
    | broadcast less w rest hpoint hne hsignal =>
      change σ.point u = .signalling at hu
      rw [hpoint] at hu
      cases hu
    | _ => simp [RwState.goto, RwState.park, RwState.letIn, RwState.resume] at hu
  · have hold : σ.point u = .signalling := by
      cases hs <;> simpa [RwState.goto, RwState.park, RwState.letIn, RwState.resume, RwState.lock,
        RwState.unlock, RwState.downed, RwState.uncount, RwState.signal, hut] using hu
    have hno : (σ.point t).guarded ≠ true := fun ht =>
      hut (h.guarded.eq ht (by rw [hold]; rfl))
    refine ⟨?_, .inl hold⟩
    cases hs with
    | park hpoint _ | signal _ _ _ hpoint _ | broadcast _ _ _ hpoint _ _ =>
      exact absurd (by rw [hpoint]; rfl) hno
    | _ => rfl

/-- What holds while writers are let in in turn: a signalled writer is on its way,
or a writer is about to be signalled, only while nobody holds the lock. -/
structure Orderly (σ : RwState T) : Prop where
  coming : ∀ u, σ.coming .writer u → σ.AR = 0 ∧ σ.AW = 0
  signalling : ∀ t, σ.point t = .signalling → σ.AR = 0 ∧ σ.AW = 0
  parking : ∀ t m, σ.point t = .parking m → σ.sema t = 0

omit [DecidableEq T] [Fintype T] in
theorem orderly_init : Orderly (.init : RwState T) where
  coming _ _ := ⟨rfl, rfl⟩
  signalling _ _ := ⟨rfl, rfl⟩
  parking _ _ _ := rfl

omit [Fintype T] in
/-- A thread moves, nobody is counted in or out, and no wait is over. -/
theorem Orderly.quiet {σ σ' : RwState T} (h : Orderly σ) {t : T} {p : RwPoint}
    (hpoint : σ'.point = Function.update σ.point t p) (hactive : σ'.active = σ.active)
    (hsema : ∀ u, u ≠ t → σ'.sema u = σ.sema u)
    (hcoming : σ'.coming .writer t → σ.coming .writer t) (hsignalling : p ≠ .signalling)
    (hparking : ∀ m, p = .parking m → σ'.sema t = 0) : Orderly σ' := by
  have hother : ∀ u, u ≠ t → σ'.point u = σ.point u := fun u hu => by
    rw [hpoint, Function.update_of_ne hu]
  have hself : σ'.point t = p := by rw [hpoint, Function.update_self]
  constructor
  case coming =>
    intro u hu
    simp only [RwState.AR, RwState.AW, hactive]
    by_cases hut : u = t
    · exact h.coming t (hcoming (hut ▸ hu))
    · exact h.coming u (by simpa [RwState.coming, hother u hut, hsema u hut] using hu)
  case signalling =>
    intro u hu
    simp only [RwState.AR, RwState.AW, hactive]
    by_cases hut : u = t
    · exact absurd (hself.symm.trans (hut ▸ hu)) hsignalling
    · exact h.signalling u ((hother u hut).symm.trans hu)
  case parking =>
    intro u m hu
    by_cases hut : u = t
    · rw [hut]
      exact hparking m (hself.symm.trans (hut ▸ hu))
    · rw [hsema u hut]
      exact h.parking u m ((hother u hut).symm.trans hu)

/-- A writer is let in in its turn, or a reader when no writer waits. -/
theorem orderly_letIn {σ : RwState T} (hinv : RwInv σ) {t : T} {m : RwMode}
    (hpoint : σ.point t = .testing m) (hblocked : σ.blocked m = false) (hturn : σ.InTurn t) :
    Orderly (σ.letIn t m) := by
  have hguarded : (σ.point t).guarded = true := by rw [hpoint]; rfl
  have hnone : ∀ u, ¬σ.coming .writer u := by
    cases m with
    | writer => exact hturn hpoint hblocked
    | reader =>
      intro u hu
      have hpos : 0 < σ.waits .writer := by
        rw [hinv.counted.waits, tally_pos_iff]
        exact ⟨u, hu.waits⟩
      have hAW := (hinv.counted.nonneg .writer).1
      have hno : σ.active .writer + σ.waits .writer ≤ 0 := by
        simpa [RwState.blocked] using hblocked
      omega
  have hother : ∀ u p, (σ.letIn t m).point u = p → p ≠ .admitted m → u ≠ t ∧ σ.point u = p := by
    intro u p hu hp
    have hut : u ≠ t := fun hut => hp (by rw [← hu, hut]; simp [RwState.letIn, RwState.goto])
    exact ⟨hut, by simpa [RwState.letIn, RwState.goto, hut] using hu⟩
  constructor
  case coming =>
    intro u hu
    refine absurd ?_ (hnone u)
    rcases hu with ⟨hu, hsema⟩ | hu | hu
    · exact .inl ⟨(hother u _ hu (by simp)).2, hsema⟩
    · exact .inr (.inl (hother u _ hu (by simp)).2)
    · exact .inr (.inr (hother u _ hu (by simp)).2)
  case signalling =>
    intro u hu
    obtain ⟨hut, hu⟩ := hother u _ hu (by simp)
    exact absurd (hinv.guarded.eq hguarded (by rw [hu]; rfl)) hut
  case parking =>
    intro u m' hu
    obtain ⟨hut, hu⟩ := hother u _ hu (by simp)
    exact absurd (hinv.guarded.eq hguarded (by rw [hu]; rfl)) hut

/-- The last one out leaves the lock free, for the writer it signals. -/
theorem Orderly.drop {σ : RwState T} (h : Orderly σ) (hinv : RwInv σ) {t : T} {m : RwMode}
    (hpoint : σ.point t = .dropping m) :
    Orderly ((σ.uncount m).goto t ((σ.uncount m).afterDrop m)) := by
  obtain ⟨hpos, hwriter, hreader⟩ := hinv.dropped hpoint
  have hguarded : (σ.point t).guarded = true := by rw [hpoint]; rfl
  have hnone : ∀ u, ¬σ.coming .writer u := fun u hu => by
    obtain ⟨hAR, hAW⟩ := h.coming u hu
    simp only [RwState.AR, RwState.AW] at hAR hAW
    cases m <;> omega
  have hkind := (σ.uncount m).afterDrop_kind m
  constructor
  case coming =>
    intro u hu
    refine absurd ?_ (hnone u)
    by_cases hut : u = t
    · subst hut
      have hwaits := hu.waits
      simp only [RwState.goto, Function.update_self, (hkind .writer).2.2.1] at hwaits
      cases hwaits
    · simpa [RwState.coming, RwState.goto, RwState.uncount, hut] using hu
  case signalling =>
    intro u hu
    by_cases hut : u = t
    · subst hut
      have hafter : (σ.uncount m).afterDrop m = .signalling := by simpa [RwState.goto] using hu
      cases m with
      | writer =>
        have hone := hwriter rfl
        simp [RwState.uncount, RwState.goto, hone]
      | reader =>
        have hAW := hreader rfl
        have hAR : (σ.uncount .reader).active .reader = 0 := by
          simp only [RwState.afterDrop] at hafter
          split_ifs at hafter with hlast
          exact hlast.1
        exact ⟨hAR, by simpa [RwState.uncount, RwState.goto] using hAW⟩
    · have hu : σ.point u = .signalling := by simpa [RwState.goto, RwState.uncount, hut] using hu
      exact absurd (hinv.guarded.eq hguarded (by rw [hu]; rfl)) hut
  case parking =>
    intro u m' hu
    by_cases hut : u = t
    · subst hut
      have hstopped := (hkind m').2.2.2
      rw [show (σ.uncount m).afterDrop m = .parking m' by simpa [RwState.goto] using hu] at hstopped
      simp [RwPoint.stopped] at hstopped
    · exact h.parking u m' (by simpa [RwState.goto, RwState.uncount, hut] using hu)

/-- A `cond_signal` by `t`, which then stands at `p` with the guard. -/
theorem Orderly.signal {σ σ' : RwState T} (h : Orderly σ) (hinv : RwInv σ) {t : T}
    {p : RwPoint} (hguarded : (σ.point t).guarded = true) (hp : ∀ m, p ≠ .parking m)
    (hpoint : σ'.point = Function.update σ.point t p) (hactive : σ'.active = σ.active)
    (hsignalling : p ≠ .signalling)
    (hcoming : ∀ u, σ'.coming .writer u → σ.coming .writer u ∨ σ.AR = 0 ∧ σ.AW = 0) :
    Orderly σ' := by
  have hother : ∀ u q, σ'.point u = q → p ≠ q → u ≠ t ∧ σ.point u = q := by
    intro u q hu hq
    have hut : u ≠ t := fun hut => hq (by rw [← hu, hut, hpoint, Function.update_self])
    rw [hpoint, Function.update_of_ne hut] at hu
    exact ⟨hut, hu⟩
  constructor
  case coming =>
    intro u hu
    simp only [RwState.AR, RwState.AW, hactive]
    exact (hcoming u hu).elim (h.coming u) id
  case signalling =>
    intro u hu
    obtain ⟨hut, hu⟩ := hother u _ hu hsignalling
    exact absurd (hinv.guarded.eq hguarded (by rw [hu]; rfl)) hut
  case parking =>
    intro u m hu
    obtain ⟨hut, hu⟩ := hother u _ hu (hp m)
    exact absurd (hinv.guarded.eq hguarded (by rw [hu]; rfl)) hut

/-- **Every step in turn keeps the order.** -/
theorem Orderly.step {σ σ' : RwState T} {k : Kernel} {t : T} (h : Orderly σ) (hinv : RwInv σ)
    (hs : RwStep k t σ σ') (hturn : σ.InTurn t) : Orderly σ' := by
  cases hs with
  | call | enter | acquired | release | exit | leave | broadcasted | resume =>
    exact h.quiet rfl rfl (fun _ _ => rfl)
      (fun hc => by simp [RwState.coming, RwState.goto, RwState.resume] at hc) (by simp) (by simp)
  | park =>
    exact h.quiet rfl rfl (fun u hu => by simp [RwState.park, RwState.goto, hu])
      (fun hc => by simp [RwState.coming, RwState.goto, RwState.park] at hc) (by simp)
      (fun _ _ => by simp [RwState.park, RwState.goto])
  | @wait m hpoint =>
    refine h.quiet rfl rfl (fun _ _ => rfl) (fun hc => ?_) (by simp) (by simp)
    have hzero := h.parking t m hpoint
    simp [RwState.coming, RwState.goto, RwState.unlock, hzero] at hc
  | @down m hpoint hsema =>
    refine h.quiet rfl rfl (fun u hu => by simp [RwState.downed, RwState.goto, hu]) (fun hc => ?_)
      (by simp) (by simp)
    have hm : m = .writer := by simpa [RwState.coming, RwState.goto] using hc
    exact .inl ⟨hm ▸ hpoint, hsema⟩
  | @relock m hpoint hfree =>
    refine h.quiet rfl rfl (fun _ _ => rfl) (fun hc => ?_) (by simp) (by simp)
    have hm : m = .writer := by simpa [RwState.coming, RwState.goto] using hc
    exact .inr (.inl (hm ▸ hpoint))
  | letIn hpoint hblocked => exact orderly_letIn hinv hpoint hblocked hturn
  | drop hpoint => exact h.drop hinv hpoint
  | signal less w rest hpoint hsignal =>
    exact h.signal hinv (by rw [hpoint]; rfl) (by simp) rfl rfl (by simp)
      fun _ _ => .inr (h.signalling t hpoint)
  | broadcast less w rest hpoint hne hsignal =>
    refine h.signal (p := .broadcasting) hinv (by rw [hpoint]; rfl) (by simp)
      (by rw [← hpoint, Function.update_eq_self]; rfl) rfl (by simp) fun u hu => .inl ?_
    obtain ⟨hperm, -⟩ := condSignal_cases hsignal
    cases w with
    | none => exact hu
    | some v =>
      have hv := ((hinv.queued.mem .reader v).1 (hperm.mem_iff.1 (by simp))).1
      by_cases huv : u = v
      · subst huv
        rcases hu with ⟨hp, -⟩ | hp | hp <;>
          simp [show σ.point u = _ from hp, RwPoint.stopped] at hv
      · simpa [RwState.coming, RwState.signal, huv] using hu

omit [DecidableEq T] in
/-- In an orderly state a thread that signals leaves a writer that has not been
signalled. -/
theorem Orderly.writerLeft {σ : RwState T} (h : Orderly σ) (hinv : RwInv σ) (t : T) :
    σ.WriterLeft t := by
  intro m hpoint hafter
  obtain ⟨hpos, -, -⟩ := hinv.dropped hpoint
  have hWW : 0 < σ.waits .writer := by
    cases m <;> simp only [RwState.afterDrop] at hafter <;> split_ifs at hafter with hlast
    · exact hlast.2
    · exact hlast
  rw [hinv.counted.waits, tally_pos_iff] at hWW
  obtain ⟨u, hu⟩ := hWW
  have hnone : ¬σ.coming .writer u := fun hc => by
    obtain ⟨hAR, hAW⟩ := h.coming u hc
    simp only [RwState.AR, RwState.AW] at hAR hAW
    cases m <;> omega
  refine ⟨u, ?_⟩
  cases hp : σ.point u with
  | parking m' =>
    have hut : u = t := hinv.guarded.eq (by rw [hpoint]; rfl) (by rw [hp]; rfl)
    rw [hut, hpoint] at hp
    cases hp
  | _ => simp_all [RwPoint.waits, RwState.coming]

/-- At the signals of a run whose releases leave a writer to be signalled, somebody is on the waiters.
By induction on the run. -/
theorem signalsSomeone_of_left {n : ℕ} {run : ℕ → RwState T} {who : ℕ → T}
    (h : RwTrace .projects n run who) (hleft : ∀ i < n, (run i).WriterLeft (who i)) :
    ∀ i ≤ n, (run i).SignalsSomeone := by
  intro i
  induction i with
  | zero =>
    intro _ t ht
    rw [h.init] at ht
    cases ht
  | succ i ih =>
    intro hi t ht
    have hinv := (h.reach i (Nat.le_of_succ_le hi)).inv
    obtain ⟨hwaiters, hold | ⟨rfl, m, hpoint, hafter⟩⟩ := (h.step i hi).signalling hinv ht
    · exact hwaiters ▸ ih (Nat.le_of_succ_le hi) t hold
    · obtain ⟨u, hu⟩ := hleft i hi m hpoint hafter
      have hmem := (hinv.mem_waiters (by rw [hpoint]; rfl) (by simp [hpoint])).2 hu
      exact hwaiters ▸ List.ne_nil_of_mem hmem

/-- **`cond_signal` finds a waiter** in every state of a run in which writers are let in in turn: none
while a signalled writer is on its way. -/
theorem condSignal_finds {n : ℕ} {run : ℕ → RwState T} {who : ℕ → T}
    (h : RwTrace .projects n run who) (hturn : ∀ i < n, (run i).InTurn (who i)) :
    ∀ i ≤ n, (run i).SignalsSomeone := by
  refine signalsSomeone_of_left h fun i hi => ?_
  have horderly : ∀ j ≤ i, Orderly (run j) := by
    intro j
    induction j with
    | zero => exact fun _ => h.init ▸ orderly_init
    | succ j ih =>
      intro hj
      exact (ih (by omega)).step (h.reach j (by omega)).inv (h.step j (by omega))
        (hturn j (by omega))
  exact (horderly i le_rfl).writerLeft (h.reach i hi.le).inv (who i)

/-- The next state of a reader, 0, and a writer, 1. -/
def RwState.next (σ : RwState (Fin 2)) (t : Fin 2) : RwState (Fin 2) :=
  match σ.point t with
  | .outside => σ.goto t (.entering (if t = 0 then .reader else .writer))
  | .entering m => (σ.lock t).goto t (.testing m)
  | .testing m => if σ.blocked m then σ.park t m else σ.letIn t m
  | .parking m => σ.unlock.goto t (.waiting m)
  | .waiting m => (σ.downed t).goto t (.woken m)
  | .woken m => (σ.lock t).goto t (.resumed m)
  | .resumed m => σ.resume t m
  | .admitted m => σ.unlock.goto t (.holding m)
  | .holding m => σ.goto t (.exiting m)
  | .exiting m => (σ.lock t).goto t (.dropping m)
  | .dropping m => (σ.uncount m).goto t ((σ.uncount m).afterDrop m)
  | .signalling => (σ.signal .writer (some 1) []).goto t .leaving
  | .broadcasting => σ.goto t .leaving
  | .leaving => σ.unlock.goto t .outside

/-- The reader enters, the writer waits, the reader leaves, and the writer goes on. -/
def readerThenWriter (i : ℕ) : Fin 2 :=
  if i < 4 then 0 else if i < 8 then 1 else if i < 13 then 0 else 1

/-- The reader signals the writer, which takes the lock and gives it up. -/
def writerAfterReader : ℕ → RwState (Fin 2)
  | 0 => .init
  | i + 1 => (writerAfterReader i).next (readerThenWriter i)

/-- The run, step by step. -/
theorem writerAfterReader_trace : RwTrace .projects 21 writerAfterReader readerThenWriter where
  init := rfl
  step i hi := by
    match i, hi with
    | 0, _ => exact .call .reader rfl
    | 1, _ => exact .enter rfl rfl
    | 2, _ => exact .letIn rfl rfl
    | 3, _ => exact .acquired rfl
    | 4, _ => exact .call .writer rfl
    | 5, _ => exact .enter rfl rfl
    | 6, _ => exact .park rfl rfl
    | 7, _ => exact .wait rfl
    | 8, _ => exact .release rfl
    | 9, _ => exact .exit rfl rfl
    | 10, _ => exact .drop rfl
    | 11, _ => exact .signal (fun _ _ => false) (some 1) [] rfl rfl
    | 12, _ => exact .leave rfl
    | 13, _ => exact .down rfl (by decide)
    | 14, _ => exact .relock rfl rfl
    | 15, _ => exact .resume rfl
    | 16, _ => exact .letIn rfl rfl
    | 17, _ => exact .acquired rfl
    | 18, _ => exact .release rfl
    | 19, _ => exact .exit rfl rfl
    | 20, _ => exact .drop rfl
    | i + 21, hi => exact absurd hi (by omega)

/-- The reader is at its `cond_signal`, and the writer is on the waiters. -/
theorem condSignal_finds_writerAfterReader : (writerAfterReader 11).point 0 = .signalling ∧
    ∀ i ≤ 21, (writerAfterReader i).SignalsSomeone := by
  refine ⟨rfl, condSignal_finds writerAfterReader_trace fun i hi => ?_⟩
  unfold RwState.InTurn RwState.coming
  revert i
  decide

/-- A second writer takes the lock before the signalled one runs and gives it up:
`WW` counts the signalled writer, and nobody is on the waiters. -/
theorem not_condSignal_finds : ¬∀ σ : RwState (Fin 3), RwReach .projects σ → σ.SignalsSomeone := by
  intro h
  have hcall := (writerSignalled_reach .projects).step (.call (t := 2) .writer rfl)
  have hlet := (hcall.step (.enter (t := 2) rfl rfl)).step (.letIn (t := 2) rfl rfl)
  have hholds := (hlet.step (.acquired (t := 2) rfl)).step (.release (t := 2) rfl)
  have hdrop := (hholds.step (.exit (t := 2) rfl rfl)).step (.drop (t := 2) rfl)
  exact h _ hdrop 2 rfl rfl

end Threads
end CS162

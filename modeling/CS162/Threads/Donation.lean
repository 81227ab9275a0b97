/-
# Priority donation

`projects1-3/src/threads/thread.c`, lines 272-287 and 376-419, and
`projects1-3/src/threads/synch.c`, lines 194-252.

A thread's effective priority is to be the highest of its own priority and of
the effective priorities of the threads that wait for a lock it holds.
`recurse_donate` restores this along the whole chain of holders
(`equation_donateLoop`).  A lock's new holder is not given the priorities of the
threads that wait already, and `update_priority` looks at the first waiter of
each lock only, in a list that is sorted nowhere but in `sema_up`.  Where
neither loses a donation, the equation holds in every state
(`donation_of_donating`).  `thread_get_priority` returns the priority without
the donations (`not_donation`).
-/

import CS162.Threads.Locks
import CS162.Threads.ReadyQueue
import Mathlib.Data.Finset.Card

namespace CS162
namespace Threads

open CS162.Basis CS162.Lib

/-- The thread is inside `thread_set_priority`, past its first assignment. -/
def Setting (code : List Region) : Prop :=
  (∃ p, code.head? = some (.setEffective p)) ∨ code.head? = some .updatePriority

/-- The priorities that a thread can have: its own, and those of the threads that
are in `lock_acquire` for a lock it holds. -/
def Machine.Donors (σ : Machine) (t : ThreadId) : Set ℤ :=
  {p | p = (σ.threads t).priority ∨
    ∃ l w, σ.holder l = some t ∧ (σ.threads w).donatedTo = some l ∧ p = σ.eff w}

/-- Every thread outside `X` has the highest priority it can have. -/
def Equation (σ : Machine) (X : ThreadId → Prop) : Prop :=
  ∀ t, ¬X t → IsGreatest (σ.Donors t) (σ.eff t)

/-! ### Changes to one thread -/

theorem Equation.mono {σ : Machine} {X X' : ThreadId → Prop} (h : Equation σ X)
    (hX : ∀ t, X t → X' t) : Equation σ X' := fun t ht => h t fun hx => ht (hX t hx)

theorem Equation.same {σ σ' : Machine} {X : ThreadId → Prop} (h : Equation σ X)
    (hsame : SamePriorities σ σ') : Equation σ' X := by
  have hdonors : ∀ t, σ'.Donors t = σ.Donors t := fun t => by
    unfold Machine.Donors
    simp only [hsame.priority, hsame.holder, hsame.donatedTo, hsame.eff]
  intro t ht
  rw [hdonors, hsame.eff]
  exact h t ht

/-- Changes that a thread outside `X'` does not see. -/
theorem Equation.congr {σ σ' : Machine} {X X' : ThreadId → Prop} (h : Equation σ X)
    (hX : ∀ t, X t → X' t)
    (hsame : ∀ t, ¬X' t → σ'.Donors t = σ.Donors t ∧ σ'.eff t = σ.eff t) : Equation σ' X' := by
  intro t ht
  obtain ⟨hdonors, heff⟩ := hsame t ht
  rw [hdonors, heff]
  exact h t fun hx => ht (hX t hx)

/-- The threads whose donations `t` sees have the same priority as before. -/
theorem donors_congr {σ σ' : Machine} {t : ThreadId}
    (hpriority : (σ'.threads t).priority = (σ.threads t).priority)
    (hwaits : ∀ l w, (σ'.holder l = some t ∧ (σ'.threads w).donatedTo = some l) ↔
      (σ.holder l = some t ∧ (σ.threads w).donatedTo = some l))
    (heff : ∀ l w, σ.holder l = some t → (σ.threads w).donatedTo = some l → σ'.eff w = σ.eff w) :
    σ'.Donors t = σ.Donors t := by
  refine Set.ext fun p => ?_
  refine or_congr (by rw [hpriority]) ⟨?_, ?_⟩
  · rintro ⟨l, w, hl, hw, hp⟩
    obtain ⟨hl', hw'⟩ := (hwaits l w).1 ⟨hl, hw⟩
    exact ⟨l, w, hl', hw', heff l w hl' hw' ▸ hp⟩
  · rintro ⟨l, w, hl, hw, hp⟩
    obtain ⟨hl', hw'⟩ := (hwaits l w).2 ⟨hl, hw⟩
    exact ⟨l, w, hl', hw', (heff l w hl hw).symm ▸ hp⟩

/-- A thread that waits for nothing changes its own priorities. -/
theorem Equation.setThread {σ : Machine} {X : ThreadId → Prop} (h : Equation σ X) {c : ThreadId}
    {f : Thread → Thread} (hto : (σ.threads c).donatedTo = none)
    (hf : (f (σ.threads c)).donatedTo = none) :
    Equation (σ.setThread c f) fun t => X t ∨ t = c := by
  have hother : ∀ u, u ≠ c → (σ.setThread c f).threads u = σ.threads u := fun u hu => by
    simp [Machine.setThread, hu]
  have hself : (σ.setThread c f).threads c = f (σ.threads c) := by simp [Machine.setThread]
  refine h.congr (fun t => .inl) fun t ht => ?_
  have hne : t ≠ c := fun heq => ht (.inr heq)
  refine ⟨donors_congr (by rw [hother t hne]) (fun l w => ?_) fun l w _ hw => ?_, ?_⟩
  · rcases Classical.em (w = c) with rfl | hw
    · rw [hself, hf, hto]
      simp
    · rw [hother w hw]
      rfl
  · have hwc : w ≠ c := fun heq => by
      rw [heq, hto] at hw
      cases hw
    unfold Machine.eff
    rw [hother w hwc]
  · unfold Machine.eff
    rw [hother t hne]

/-- A thread that waits for nothing gets the priority it can have. -/
theorem Equation.restore {σ : Machine} {X : ThreadId → Prop} {c : ThreadId} {m : ℤ}
    (h : Equation σ fun t => X t ∨ t = c) (hto : (σ.threads c).donatedTo = none)
    (hc : IsGreatest (σ.Donors c) m) : Equation (σ.setEff c m) fun t => X t ∧ t ≠ c := by
  have hset := h.setThread (f := fun th => { th with effectivePriority := m }) hto hto
  intro t ht
  rcases Classical.em (t = c) with rfl | hne
  · have hpriority : ((σ.setEff t m).threads t).priority = (σ.threads t).priority := by
      simp [Machine.setEff, Machine.setThread]
    have hwaits : ∀ w, ((σ.setEff t m).threads w).donatedTo = (σ.threads w).donatedTo := fun w => by
      rcases Classical.em (w = t) with rfl | hw
      · simp [Machine.setEff, Machine.setThread]
      · simp [Machine.setEff, Machine.setThread, hw]
    have hself : (σ.setEff t m).eff t = m := by simp [Machine.setEff]
    rw [hself, donors_congr hpriority (fun l w => by rw [hwaits w]; rfl) fun l w _ hw => ?_]
    · exact hc
    · have hwt : w ≠ t := fun heq => by
        rw [heq, hto] at hw
        cases hw
      rw [Machine.setEff, eff_setThread, if_neg hwt]
  · exact hset t fun hor => ht ⟨(hor.resolve_right hne).resolve_right hne, hne⟩

/-- `update_priority`, where the first waiters have the highest priorities. -/
theorem maxPriority_donors {σ : Machine} {t : ThreadId} {locks : List LockId}
    (howned : ∀ l, l ∈ locks ↔ σ.holder l = some t)
    (hwaiting : ∀ l, ∀ w ∈ σ.waiters (.lock l), (σ.threads w).donatedTo = some l)
    (hcovered : ∀ l ∈ locks, ∀ w, (σ.threads w).donatedTo = some l →
      σ.Covered t locks (σ.eff w)) :
    IsGreatest (σ.Donors t) (maxPriority σ locks (σ.threads t).priority) := by
  obtain ⟨hmem, hbound⟩ := maxPriority_isGreatest σ locks (σ.threads t).priority
  refine ⟨hmem.imp id ?_, ?_⟩
  · rintro ⟨l, hl, w, hw, heq⟩
    exact ⟨l, w, (howned l).1 hl, hwaiting l w (List.mem_of_mem_head? hw), heq⟩
  · rintro p (rfl | ⟨l, w, hl, hw, rfl⟩)
    · exact hbound (.inl rfl)
    · exact (covered_iff σ t locks _).1 (hcovered l ((howned l).2 hl) w hw)

/-! ### `recurse_donate` -/

theorem waitsOn_iff {σ : Machine} {w t : ThreadId} :
    σ.waitsOn w = some t ↔ ∃ l, (σ.threads w).donatedTo = some l ∧ σ.holder l = some t :=
  Option.bind_eq_some_iff

/-- `recurse_donate` has brought the priority `p` to `curr`.  The equation holds,
but the thread that `curr` waits for has not been compared with `curr`. -/
structure AtTurn (σ : Machine) (X : ThreadId → Prop) (p : ℤ) (curr : ThreadId) : Prop where
  others : ∀ t, ¬X t → σ.waitsOn curr ≠ some t → IsGreatest (σ.Donors t) (σ.eff t)
  bound : ∀ t, ¬X t → σ.waitsOn curr = some t → (σ.threads t).priority ≤ σ.eff t ∧
    ∀ l w, σ.holder l = some t → (σ.threads w).donatedTo = some l → w ≠ curr →
      σ.eff w ≤ σ.eff t
  attained : ∀ t, ¬X t → σ.waitsOn curr = some t → p ≤ σ.eff t →
    σ.eff t = (σ.threads t).priority ∨ ∃ l w, σ.holder l = some t ∧
      (σ.threads w).donatedTo = some l ∧ w ≠ curr ∧ σ.eff t = σ.eff w

/-- A turn of the loop: the holder gets the priority, and is the next to give it. -/
theorem AtTurn.turn {σ : Machine} {X : ThreadId → Prop} {p : ℤ} {curr next : ThreadId}
    (h : AtTurn σ X p curr) (hp : σ.eff curr = p) (hnext : σ.waitsOn curr = some next)
    (hlt : σ.eff next < p) : AtTurn (σ.raise next p) X p next := by
  have hlocks := sameLocks_raise σ next p
  have hne : curr ≠ next := by
    rintro rfl
    exact absurd hp hlt.ne
  have heff : ∀ u, u ≠ next → (σ.raise next p).eff u = σ.eff u := fun u hu => by
    rw [eff_raise, if_neg hu]
  have hself : (σ.raise next p).eff next = p := by rw [eff_raise, if_pos rfl]
  obtain ⟨l₀, hto₀, hheld₀⟩ := waitsOn_iff.1 hnext
  have hother : ∀ t, t ≠ next → σ.waitsOn curr ≠ some t := fun t ht heq =>
    ht (Option.some.inj (heq.symm.trans hnext))
  -- everybody `next` holds a lock for is at `p` at most
  have hbelow : ¬X next → ∀ l w, σ.holder l = some next → (σ.threads w).donatedTo = some l →
      (σ.raise next p).eff w ≤ p := fun hX l w hl hw => by
    rcases Classical.em (w = next) with rfl | hwn
    · exact hself.le
    · rw [heff w hwn]
      rcases Classical.em (w = curr) with rfl | hwc
      · exact hp.le
      · exact ((h.bound next hX hnext).2 l w hl hw hwc).trans hlt.le
  refine ⟨fun t hX hwaits => ?_, fun t hX hwaits => ?_, fun t hX hwaits hpt => ?_⟩
  · rw [waitsOn_raise] at hwaits
    rcases Classical.em (t = next) with rfl | ht
    · refine ⟨.inr ⟨l₀, curr, ?_, ?_, ?_⟩, ?_⟩
      · rw [hlocks.holder]
        exact hheld₀
      · rw [hlocks.donatedTo]
        exact hto₀
      · rw [hself, heff curr hne, hp]
      · rintro q (rfl | ⟨l, w, hl, hw, rfl⟩)
        · rw [priority_raise, hself]
          exact (h.bound t hX hnext).1.trans hlt.le
        · rw [hself]
          rw [hlocks.holder] at hl
          rw [hlocks.donatedTo] at hw
          exact hbelow hX l w hl hw
    · rw [heff t ht, donors_congr (priority_raise σ next t p) (fun l w => by
        rw [hlocks.holder, hlocks.donatedTo]) fun l w hl hw => heff w fun heq => ?_]
      · exact h.others t hX (hother t ht)
      · exact hwaits (waitsOn_iff.2 ⟨l, heq ▸ hw, hl⟩)
  · rw [priority_raise]
    simp only [hlocks.holder, hlocks.donatedTo]
    rcases Classical.em (t = next) with rfl | ht
    · rw [hself]
      exact ⟨(h.bound t hX hnext).1.trans hlt.le, fun l w hl hw _ => hbelow hX l w hl hw⟩
    · obtain ⟨-, hmax⟩ := h.others t hX (hother t ht)
      rw [heff t ht]
      refine ⟨hmax (.inl rfl), fun l w hl hw hwn => ?_⟩
      rw [heff w hwn]
      exact hmax (.inr ⟨l, w, hl, hw, rfl⟩)
  · rw [priority_raise]
    simp only [hlocks.holder, hlocks.donatedTo]
    rcases Classical.em (t = next) with rfl | ht
    · exact .inr ⟨l₀, curr, hheld₀, hto₀, hne, by rw [hself, heff curr hne, hp]⟩
    · obtain ⟨hmem, -⟩ := h.others t hX (hother t ht)
      rw [heff t ht] at hpt ⊢
      refine hmem.imp id ?_
      rintro ⟨l, w, hl, hw, heq⟩
      have hwn : w ≠ next := by
        rintro rfl
        exact absurd hlt (not_lt.2 (heq ▸ hpt))
      exact ⟨l, w, hl, hw, hwn, by rw [heff w hwn, heq]⟩

/-- The end of the loop: the last thread waits for nobody below it. -/
theorem AtTurn.equation {σ : Machine} {X : ThreadId → Prop} {p : ℤ} {last : ThreadId}
    (h : AtTurn σ X p last) (hp : σ.eff last = p)
    (hlast : ∀ next, σ.waitsOn last = some next → p ≤ σ.eff next) : Equation σ X := by
  intro t hX
  rcases Classical.em (σ.waitsOn last = some t) with hwaits | hwaits
  · have hle := hlast t hwaits
    refine ⟨(h.attained t hX hwaits hle).imp id ?_, ?_⟩
    · rintro ⟨l, w, hl, hw, -, heq⟩
      exact ⟨l, w, hl, hw, heq⟩
    · obtain ⟨hpriority, hbound⟩ := h.bound t hX hwaits
      rintro q (rfl | ⟨l, w, hl, hw, rfl⟩)
      · exact hpriority
      · rcases Classical.em (w = last) with rfl | hwl
        · exact hp.trans_le hle
        · exact hbound l w hl hw hwl
  · exact h.others t hX hwaits

/-- **`recurse_donate` restores the equation** along the chain of holders. -/
theorem equation_donateLoop {σ σ' : Machine} {X : ThreadId → Prop} {fuel : ℕ} {curr : ThreadId}
    (h : AtTurn σ X (σ.eff curr) curr)
    (hrun : (donateLoop fuel curr).run σ = some ((), σ')) : Equation σ' X := by
  obtain ⟨last, hturn, hp, hlast⟩ := donateLoop_rule (p := σ.eff curr)
    (I := fun curr' τ => AtTurn τ X (σ.eff curr) curr')
    (fun τ curr' next hI hp hnext hlt _ => hI.turn hp hnext hlt) hrun rfl h
  exact hturn.equation hp hlast

/-- `lock_acquire` up to its `sema_down`. -/
theorem Equation.acquire {σ σ₁ : Machine} {X : ThreadId → Prop} {l : LockId}
    (h : Equation σ X) (hto : (σ.threads σ.current).donatedTo = none)
    (hdonate : (σ.holder l = none ∧ σ₁ = σ.donateTo l) ∨ (σ.holder l ≠ none ∧
      (donateLoop (σ.allList.length + 1) σ.current).run (σ.donateTo l) = some ((), σ₁))) :
    Equation σ₁ X := by
  have heff : ∀ u, (σ.donateTo l).eff u = σ.eff u := eff_setThread_of_eq rfl
  have hpriority : ∀ u, ((σ.donateTo l).threads u).priority = (σ.threads u).priority := fun u => by
    rcases Classical.em (u = σ.current) with rfl | hu
    · simp [Machine.donateTo, Machine.setThread]
    · simp [Machine.donateTo, Machine.setThread, hu]
  have hself : ((σ.donateTo l).threads σ.current).donatedTo = some l := by
    simp [Machine.donateTo, Machine.setThread]
  have hother : ∀ w, w ≠ σ.current →
      ((σ.donateTo l).threads w).donatedTo = (σ.threads w).donatedTo := fun w hw => by
    simp [Machine.donateTo, Machine.setThread, hw]
  -- only the holder of `l` sees the running thread
  have hunseen : ∀ t, σ.holder l ≠ some t → (σ.donateTo l).Donors t = σ.Donors t := fun t ht => by
    refine donors_congr (hpriority t) (fun l' w => ?_) fun _ w _ _ => heff w
    show σ.holder l' = some t ∧ _ ↔ _
    refine and_congr_right fun hl' => ?_
    rcases Classical.em (w = σ.current) with rfl | hw
    · rw [hself, hto]
      simp only [Option.some.injEq, reduceCtorEq, iff_false]
      rintro rfl
      exact ht hl'
    · rw [hother w hw]
  rcases hdonate with ⟨hfree, rfl⟩ | ⟨-, hloop⟩
  · refine h.congr (fun _ => id) fun t _ => ⟨hunseen t ?_, heff t⟩
    rw [hfree]
    simp
  · refine equation_donateLoop ⟨fun t hX hwaits => ?_, fun t hX hwaits => ?_,
      fun t hX hwaits _ => ?_⟩ hloop
    · rw [heff, hunseen t fun hl => hwaits (waitsOn_iff.2 ⟨l, hself, hl⟩)]
      exact h t hX
    · obtain ⟨-, hmax⟩ := h t hX
      rw [hpriority, heff]
      refine ⟨hmax (.inl rfl), fun l' w hl' hw hwc => ?_⟩
      rw [heff]
      rw [hother w hwc] at hw
      exact hmax (.inr ⟨l', w, hl', hw, rfl⟩)
    · obtain ⟨hmem, -⟩ := h t hX
      rw [hpriority, heff]
      refine hmem.imp id ?_
      rintro ⟨l', w, hl', hw, heq⟩
      have hwc : w ≠ σ.current := by
        rintro rfl
        rw [hto] at hw
        cases hw
      exact ⟨l', w, hl', (hother w hwc).symm ▸ hw, hwc, (heff w).symm ▸ heq⟩

/-! ### `recurse_donate` ends -/

theorem donateLoop_turn {fuel : ℕ} {curr next : ThreadId} {σ : Machine}
    (hnext : σ.waitsOn curr = some next) (hlt : σ.eff next < σ.eff curr)
    (hlinked : (σ.threads next).status = .ready → σ.Linked next) :
    (donateLoop (fuel + 1) curr).run σ =
      (donateLoop fuel next).run (σ.raise next (σ.eff curr)) := by
  rw [donateLoop, run_bind_of_run (a := σ) (t := σ) rfl, hnext]
  dsimp only
  rw [if_pos hlt, run_bind_of_run (t := σ.setEff next (σ.eff curr)) rfl]
  unfold Machine.raise
  split
  · rename_i hready
    have hrequeue : (requeue next).run (σ.setEff next (σ.eff curr)) =
        some ((), (σ.setEff next (σ.eff curr)).requeue next) := by
      have hset : (σ.setEff next (σ.eff curr)).Linked next := hlinked hready
      rw [requeue_run, if_pos hset]
    rw [run_bind_of_run hrequeue]
  · rfl

theorem donateLoop_stop {fuel : ℕ} {curr : ThreadId} {σ : Machine}
    (hstop : ∀ next, σ.waitsOn curr = some next → σ.eff curr ≤ σ.eff next) :
    (donateLoop (fuel + 1) curr).run σ = some ((), σ) := by
  rw [donateLoop, run_bind_of_run (a := σ) (t := σ) rfl]
  cases hnext : σ.waitsOn curr with
  | none => rfl
  | some next =>
    dsimp only
    rw [if_neg (not_lt.2 (hstop next hnext))]
    rfl

/-- The threads below a priority. -/
def Machine.below (σ : Machine) (p : ℤ) : Finset ThreadId :=
  σ.allList.toFinset.filter fun t => σ.eff t < p

theorem below_raise {σ : Machine} {t : ThreadId} {p : ℤ} (ht : t ∈ σ.allList)
    (hlt : σ.eff t < p) : ((σ.raise t p).below p).card < (σ.below p).card := by
  have hall := (sameLocks_raise σ t p).allList
  refine Finset.card_lt_card ⟨fun u hu => ?_, fun hsub => ?_⟩
  · simp only [Machine.below, Finset.mem_filter, List.mem_toFinset, hall, eff_raise] at hu ⊢
    refine ⟨hu.1, ?_⟩
    split at hu
    · exact absurd hu.2 (lt_irrefl p)
    · exact hu.2
  · have hmem : t ∈ (σ.raise t p).below p := hsub (by simp [Machine.below, ht, hlt])
    simp [Machine.below] at hmem

/-- The holders of locks are threads, and linked into a list while they are ready. -/
def Machine.HoldersListed (σ : Machine) : Prop :=
  ∀ l t, σ.holder l = some t → t ∈ σ.allList ∧ (σ.status t = .ready → σ.Linked t)

theorem Machine.HoldersListed.raise {σ : Machine} (h : σ.HoldersListed) {next : ThreadId}
    {p : ℤ} : (σ.raise next p).HoldersListed := by
  have hlocks := sameLocks_raise σ next p
  have hlinked : ∀ t, σ.Linked t → (σ.raise next p).Linked t := fun t ht => by
    unfold Machine.raise
    split
    · rcases Classical.em (t = next) with rfl | hne
      · exact .inr (mem_listInsertOrdered.2 (.inl rfl))
      · exact ht.imp (List.mem_erase_of_ne hne).2 fun ht =>
          mem_listInsertOrdered.2 (.inr ((List.mem_erase_of_ne hne).2 ht))
    · exact ht
  intro l t hl
  rw [hlocks.holder] at hl
  rw [hlocks.allList, status_raise]
  exact ⟨(h l t hl).1, fun hready => hlinked t ((h l t hl).2 hready)⟩

/-- **`recurse_donate` ends**: each turn leaves fewer threads below the priority. -/
theorem donateLoop_returns {p : ℤ} {fuel : ℕ} : ∀ {curr : ThreadId} {σ : Machine},
    σ.HoldersListed → σ.eff curr = p → (σ.below p).card < fuel →
    ∃ σ', (donateLoop fuel curr).run σ = some ((), σ') := by
  induction fuel with
  | zero => exact fun _ _ hfuel => absurd hfuel (Nat.not_lt_zero _)
  | succ fuel ih =>
    intro curr σ hlisted hp hfuel
    rcases Classical.em (∀ next, σ.waitsOn curr = some next → σ.eff curr ≤ σ.eff next) with
      hstop | hmore
    · exact ⟨σ, donateLoop_stop hstop⟩
    · push Not at hmore
      obtain ⟨next, hnext, hlt⟩ := hmore
      obtain ⟨l, -, hheld⟩ := waitsOn_iff.1 hnext
      obtain ⟨hmem, hlinked⟩ := hlisted l next hheld
      rw [donateLoop_turn hnext hlt hlinked, hp]
      rw [hp] at hlt
      have hfewer := below_raise hmem hlt
      exact ih hlisted.raise (by simp) (by omega)

/-- `lock_acquire` comes to its `sema_down`, unless the caller holds the lock. -/
theorem lockAcquire_returns {σ : Machine} {l : LockId} (h : σ.HoldersListed)
    (hother : σ.holder l ≠ some σ.current) :
    ∃ σ', (lockAcquire l).run σ = some ((), σ') := by
  have hto : (σ.donateTo l).HoldersListed := fun l' t hl' => by
    refine ⟨(h l' t hl').1, fun hready => (h l' t hl').2 ?_⟩
    have hstatus := (sameLists_setThread (σ := σ) (t := σ.current)
      (f := fun th => { th with donatedTo := some l }) rfl).status t
    exact hstatus.symm.trans hready
  unfold lockAcquire
  rw [run_bind_of_run (a := σ) (t := σ) rfl, if_neg hother,
    run_bind_of_run (t := σ.donateTo l) rfl]
  split
  · have hcard : ((σ.donateTo l).below ((σ.donateTo l).eff σ.current)).card <
        (σ.donateTo l).allList.length + 1 :=
      Nat.lt_succ_of_le ((Finset.card_filter_le _ _).trans (List.toFinset_card_le _))
    obtain ⟨σ₁, hloop⟩ := donateLoop_returns hto rfl hcard
    have hdonate : (recurseDonate σ.current).run (σ.donateTo l) = some ((), σ₁) := hloop
    rw [run_bind_of_run hdonate]
    exact ⟨_, rfl⟩
  · exact ⟨_, rfl⟩

/-- In the states reached `lock_acquire` does. -/
theorem Reached.holdersListed {ok : Machine → Event → Prop} {σ : Machine}
    (h : Reached .prio ok σ) : σ.HoldersListed := by
  obtain ⟨hplaced, hprio, hqueue⟩ := h.queueOrdered
  have hlocks := h.lockInv fun τ hτ => (hτ.placed (.inl rfl)).1
  refine fun l t hl => ⟨hlocks.born l t hl, fun hready => .inr ?_⟩
  refine (hplaced.listed.mem_priorityQueue hprio t).2 ⟨hready, ?_⟩
  rintro rfl
  exact hqueue.holders l hl

/-! ### Taking and giving back -/

/-- A lock goes to the running thread, which is above the others that wait. -/
theorem Equation.take {σ : Machine} {X : ThreadId → Prop} {l : LockId} (h : Equation σ X)
    (hfree : σ.holder l = none) (hto : (σ.threads σ.current).donatedTo = some l)
    (hle : ∀ w, w ≠ σ.current → (σ.threads w).donatedTo = some l → σ.eff w ≤ σ.eff σ.current) :
    Equation (σ.take l) X := by
  have heff : ∀ u, (σ.take l).eff u = σ.eff u := fun u => eff_setThread_of_eq
    (f := fun th => { th with donatedTo := none, donatedLocks := th.donatedLocks ++ [l] }) rfl u
  have hpriority : ∀ u, ((σ.take l).threads u).priority = (σ.threads u).priority := fun u => by
    rcases Classical.em (u = σ.current) with rfl | hu
    · simp [Machine.take, Machine.setThread]
    · simp [Machine.take, Machine.setThread, hu]
  have hself : ((σ.take l).threads σ.current).donatedTo = none := by
    simp [Machine.take, Machine.setThread]
  have hother : ∀ w, w ≠ σ.current →
      ((σ.take l).threads w).donatedTo = (σ.threads w).donatedTo := fun w hw => by
    simp [Machine.take, Machine.setThread, hw]
  have hholder : ∀ l', (σ.take l).holder l' = if l' = l then some σ.current else σ.holder l' :=
    fun l' => by
      rcases Classical.em (l' = l) with rfl | hl
      · simp [Machine.take]
      · simp [Machine.take, Machine.setThread, hl]
  -- a pair the new state has is old, or is a thread that waits for `l`
  have hpair : ∀ l' w t, (σ.take l).holder l' = some t →
      ((σ.take l).threads w).donatedTo = some l' → w ≠ σ.current ∧
        (σ.threads w).donatedTo = some l' ∧
        ((l' = l ∧ t = σ.current) ∨ (l' ≠ l ∧ σ.holder l' = some t)) := fun l' w t hl hw => by
    have hwc : w ≠ σ.current := by
      rintro rfl
      rw [hself] at hw
      cases hw
    rw [hother w hwc] at hw
    refine ⟨hwc, hw, ?_⟩
    rw [hholder] at hl
    split at hl
    · rename_i heq
      exact .inl ⟨heq, (Option.some.inj hl).symm⟩
    · rename_i hneq
      exact .inr ⟨hneq, hl⟩
  have hkept : ∀ l' w t, σ.holder l' = some t → (σ.threads w).donatedTo = some l' →
      (σ.take l).holder l' = some t ∧ ((σ.take l).threads w).donatedTo = some l' :=
    fun l' w t hl hw => by
      have hne : l' ≠ l := by
        rintro rfl
        rw [hfree] at hl
        cases hl
      have hwc : w ≠ σ.current := by
        rintro rfl
        exact hne (Option.some.inj (hw.symm.trans hto))
      rw [hholder, if_neg hne, hother w hwc]
      exact ⟨hl, hw⟩
  intro t hX
  obtain ⟨hmem, hmax⟩ := h t hX
  refine ⟨?_, ?_⟩
  · rw [heff]
    refine hmem.imp (fun hp => hp.trans (hpriority t).symm) ?_
    rintro ⟨l', w, hl', hw, heq⟩
    obtain ⟨hl'', hw'⟩ := hkept l' w t hl' hw
    exact ⟨l', w, hl'', hw', heq.trans (heff w).symm⟩
  · rw [heff]
    rintro q (rfl | ⟨l', w, hl', hw, rfl⟩)
    · rw [hpriority]
      exact hmax (.inl rfl)
    · rw [heff]
      obtain ⟨hwc, hw', ⟨rfl, rfl⟩ | ⟨-, hheld⟩⟩ := hpair l' w t hl' hw
      · exact hle w hwc hw'
      · exact hmax (.inr ⟨l', w, hheld, hw', rfl⟩)

/-- A lock goes from the running thread, which waits for nothing. -/
theorem Equation.drop {σ : Machine} {X : ThreadId → Prop} {l : LockId} (h : Equation σ X)
    (hheld : σ.holder l = some σ.current) :
    Equation (σ.drop l) fun t => X t ∨ t = σ.current := by
  have heff : ∀ u, (σ.drop l).eff u = σ.eff u := fun u =>
    eff_setThread_of_eq (f := fun th => { th with donatedLocks := th.donatedLocks.erase l }) rfl u
  have hthread : ∀ u, ((σ.drop l).threads u).priority = (σ.threads u).priority ∧
      ((σ.drop l).threads u).donatedTo = (σ.threads u).donatedTo := fun u => by
    rcases Classical.em (u = σ.current) with rfl | hu
    · simp [Machine.drop, Machine.setThread]
    · simp [Machine.drop, Machine.setThread, hu]
  refine h.congr (fun t => .inl) fun t ht => ⟨?_, heff t⟩
  have hne : t ≠ σ.current := fun heq => ht (.inr heq)
  refine donors_congr (hthread t).1 (fun l' w => ?_) fun _ w _ _ => heff w
  rw [(hthread w).2]
  refine and_congr_left fun _ => ?_
  rcases Classical.em (l' = l) with rfl | hl
  · rw [hheld]
    simp [Machine.drop, Ne.symm hne]
  · simp [Machine.drop, Machine.setThread, hl]

/-- The new thread holds and waits for nothing. -/
theorem Equation.create {σ : Machine} {X : ThreadId → Prop} {p : ℤ} (h : Equation σ X)
    (hto : (σ.threads σ.nextThread).donatedTo = none)
    (hunheld : ∀ l, σ.holder l ≠ some σ.nextThread) : Equation (σ.create p) X := by
  have hself : (σ.create p).threads σ.nextThread = initThread p := by
    simp [Machine.create, Machine.push, Machine.setCode]
  have hother : ∀ t, t ≠ σ.nextThread → (σ.create p).threads t = σ.threads t := fun t ht => by
    simp [Machine.create, Machine.push, Machine.setCode, ht]
  intro t hX
  rcases Classical.em (t = σ.nextThread) with rfl | ht
  · unfold Machine.eff
    rw [hself]
    refine ⟨.inl (by rw [hself]; rfl), ?_⟩
    rintro q (rfl | ⟨l, w, hl, -, -⟩)
    · rw [hself]
      exact le_rfl
    · exact absurd hl (hunheld l)
  · have hwaits : ∀ l w, ((σ.create p).threads w).donatedTo = some l ↔
        (σ.threads w).donatedTo = some l := fun l w => by
      rcases Classical.em (w = σ.nextThread) with rfl | hw
      · rw [hself, hto]
        simp [initThread]
      · rw [hother w hw]
    have hdonors : (σ.create p).Donors t = σ.Donors t := by
      refine donors_congr (by rw [hother t ht]) (fun l w => and_congr_right fun _ => hwaits l w)
        fun l w _ hw => ?_
      have hwn : w ≠ σ.nextThread := fun heq => by
        rw [heq, hto] at hw
        cases hw
      unfold Machine.eff
      rw [hother w hwn]
    unfold Machine.eff
    rw [hdonors, hother t ht]
    exact h t hX

/-! ### Steps -/

/-- No step loses a donation: a thread that takes a lock is above the others that
wait for it; and where `update_priority` runs, each thread that waits for a lock
of the running thread is at most at the priority of that thread, or of the first
waiter of a lock it holds. -/
def Donating (σ : Machine) : Event → Prop
  | .run (.take l) => ∀ w, w ≠ σ.current → (σ.threads w).donatedTo = some l →
      σ.eff w ≤ σ.eff σ.current
  | .run (.release l) => ∀ l' ∈ (σ.threads σ.current).donatedLocks.erase l, ∀ w,
      (σ.threads w).donatedTo = some l' →
      σ.Covered σ.current ((σ.threads σ.current).donatedLocks.erase l) (σ.eff w)
  | .run .updatePriority => ∀ l' ∈ (σ.threads σ.current).donatedLocks, ∀ w,
      (σ.threads w).donatedTo = some l' →
      σ.Covered σ.current (σ.threads σ.current).donatedLocks (σ.eff w)
  | _ => True

/-- The waiters of a lock's semaphore are in `lock_acquire`. -/
theorem LockInv.waiter {σ : Machine} (h : LockInv σ) (hplaced : Placed σ) {l : LockId}
    {w : ThreadId} (hw : w ∈ σ.waiters (.lock l)) : (σ.threads w).donatedTo = some l :=
  (h.waiting w l).2 (.inl (hplaced.listed.waiting (.lock l) w hw).2)

/-- A thread is inside `thread_set_priority` after one of its first two regions. -/
theorem setting_pushes {r : Region} {rest pushed : List Region} (h : Formed (r :: rest))
    (hpushed : r.Pushes pushed) :
    Setting (pushed ++ rest) ↔ ∃ p, r = .setPriority p ∨ r = .setEffective p := by
  cases r with
  | create p =>
    cases (h : rest = [])
    rcases hpushed with rfl | ⟨t, rfl⟩ <;> simp [Setting]
  | down s =>
    cases s with
    | lock l =>
      obtain ⟨rest', rfl, -⟩ := h
      rcases hpushed with rfl | rfl <;> simp [Setting]
    | other n =>
      cases (h : rest = [])
      rcases hpushed with rfl | rfl <;> simp [Setting]
  | sleep ticks =>
    cases (h : rest = [])
    rcases hpushed with rfl | rfl <;> simp [Setting]
  | acquire l =>
    cases (hpushed : pushed = _)
    simp [Setting]
  | take l =>
    cases (hpushed : pushed = _)
    rcases h with rfl | ⟨t, rfl⟩ <;> simp [Setting]
  | release l =>
    cases (hpushed : pushed = _)
    rcases h with rfl | ⟨t, rfl⟩ <;> simp [Setting]
  | tryDown s | up s =>
    cases (hpushed : pushed = _)
    cases s with
    | lock l => cases h
    | other n =>
      cases (h : rest = [])
      simp [Setting]
  | start _ | yieldTo _ | yield | setPriority _ | setEffective _ | updatePriority | sleepInsert
  | slept | block | resumed | unblock _ =>
    cases (hpushed : pushed = _)
    cases (h : rest = _)
    simp [Setting]

/-- What `lock_release` leaves the running thread is the highest priority it can
have by the locks it keeps. -/
theorem LockInv.release_max {σ : Machine} (h : LockInv σ) (hplaced : Placed σ) {l : LockId}
    (hheld : σ.holder l = some σ.current) (hok : Donating σ (.run (.release l))) :
    IsGreatest ((σ.drop l).Donors σ.current) ((σ.drop l).maxPriority σ.current) := by
  have heff : ∀ u, (σ.drop l).eff u = σ.eff u := fun u =>
    eff_setThread_of_eq (f := fun th => { th with donatedLocks := th.donatedLocks.erase l }) rfl u
  have hlocks : ((σ.drop l).threads σ.current).donatedLocks =
      (σ.threads σ.current).donatedLocks.erase l := by
    simp [Machine.drop, Machine.setThread]
  have hpriority : ((σ.drop l).threads σ.current).priority = (σ.threads σ.current).priority := by
    simp [Machine.drop, Machine.setThread]
  have hto : ∀ w, ((σ.drop l).threads w).donatedTo = (σ.threads w).donatedTo := fun w => by
    rcases Classical.em (w = σ.current) with rfl | hw
    · simp [Machine.drop, Machine.setThread]
    · simp [Machine.drop, Machine.setThread, hw]
  refine maxPriority_donors (fun l' => ?_) (fun l' w hw => ?_) fun l' hl' w hw => ?_
  · rw [hlocks, (h.nodup _).mem_erase_iff, h.owned]
    rcases Classical.em (l' = l) with rfl | hl
    · simp [Machine.drop]
    · simp [Machine.drop, Machine.setThread, hl]
  · rw [hto]
    exact h.waiter hplaced hw
  · rw [hto] at hw
    rw [hlocks] at hl' ⊢
    have hcovered := hok l' hl' w hw
    unfold Machine.Covered at hcovered ⊢
    simp only [hpriority, heff]
    exact hcovered

/-- **What a region does to the equation.** -/
theorem Equation.execute {σ σ' : Machine} (h : Equation σ fun t => Setting (σ.code t))
    (hlocks : LockInv σ) (hplaced : Placed σ) {r : Region} {rest : List Region}
    (hform : Formed (r :: rest)) (hcode : σ.code σ.current = r :: rest)
    (hok : Donating σ (.run r))
    (hrun : (Threads.execute r).run (σ.setCode σ.current rest) = some ((), σ')) :
    Equation σ' fun t => Setting (σ'.code t) := by
  have hpop := hplaced.pop hcode
  have hrep := execute_priorities hpop hrun
  obtain ⟨pushed, hpushed, hself, hother⟩ := execute_code hpop hrun
  have hrest : (σ.setCode σ.current rest).code σ.current = rest := by simp [Machine.setCode]
  rw [show (σ.setCode σ.current rest).current = σ.current from rfl, hrest] at hself
  replace hother : ∀ t, t ≠ σ.current → σ'.code t = σ.code t := fun t ht =>
    (hother t ht).trans (by simp [Machine.setCode, ht])
  have hsetting : Setting (σ'.code σ.current) ↔ ∃ p, r = .setPriority p ∨ r = .setEffective p := by
    rw [hself]
    exact setting_pushes hform hpushed
  have hwas : Setting (σ.code σ.current) ↔ (∃ p, r = .setEffective p) ∨ r = .updatePriority := by
    rw [hcode]
    simp [Setting]
  have hto : (∀ l, r ≠ .down (.lock l)) → (∀ l, r ≠ .take l) →
      (σ.threads σ.current).donatedTo = none := fun hdown htake => by
    cases hto : (σ.threads σ.current).donatedTo with
    | none => rfl
    | some l =>
      have hat := (hlocks.waiting σ.current l).1 hto
      rw [hcode] at hat
      rcases hat with heq | heq
      · exact absurd (Option.some.inj heq) (hdown l)
      · exact absurd (Option.some.inj heq) (htake l)
  replace h : Equation (σ.setCode σ.current rest) fun t => Setting (σ.code t) := h
  -- who is inside `thread_set_priority`, before and after
  have hstill : ∀ t, t ≠ σ.current → Setting (σ.code t) → Setting (σ'.code t) := fun t ht hX => by
    rwa [hother t ht]
  have hplain : (∀ p, r ≠ .setEffective p) → r ≠ .updatePriority →
      ∀ t, Setting (σ.code t) → Setting (σ'.code t) := fun heffective hupdate t hX => by
    rcases Classical.em (t = σ.current) with rfl | ht
    · rcases hwas.1 hX with ⟨p, hp⟩ | hp
      · exact absurd hp (heffective p)
      · exact absurd hp hupdate
    · exact hstill t ht hX
  have hsame : (∀ p, r ≠ .setEffective p) → r ≠ .updatePriority →
      SamePriorities (σ.setCode σ.current rest) σ' → Equation σ' fun t => Setting (σ'.code t) :=
    fun heffective hupdate hsame => (h.same hsame).mono (hplain heffective hupdate)
  cases r with
  | create p =>
    rcases hrep with hrep | ⟨-, -, hrep⟩
    · exact hsame (by simp) (by simp) hrep
    · have hnil := (hplaced.coded.unborn σ.nextThread (.inl le_rfl)).2.1
      refine ((h.create ?_ fun l hl => ?_).same hrep).mono (hplain (by simp) (by simp))
      · cases hnew : (σ.threads σ.nextThread).donatedTo with
        | none => exact hnew
        | some l =>
          have hat := (hlocks.waiting _ l).1 hnew
          rw [hnil] at hat
          rcases hat with heq | heq <;> cases heq
      · exact lt_irrefl _ ((hlocks.listed _).1 (hlocks.born l σ.nextThread hl))
  | start _ | yieldTo _ | yield | sleep _ | sleepInsert | slept | block | resumed | unblock _ =>
    exact hsame (by simp) (by simp) hrep
  | tryDown s =>
    exact (Equation.same (σ := σ.setCode σ.current rest |>.setSema s _) h hrep).mono
      (hplain (by simp) (by simp))
  | up s =>
    obtain ⟨sema, -, hrep⟩ := hrep
    exact (Equation.same (σ := σ.setCode σ.current rest |>.setSema s sema) h hrep).mono
      (hplain (by simp) (by simp))
  | down s =>
    rcases hrep with ⟨-, hrep⟩ | ⟨-, hrep⟩
    · exact hsame (by simp) (by simp) hrep
    · exact (Equation.same (σ := σ.setCode σ.current rest |>.setSema s _) h hrep).mono
        (hplain (by simp) (by simp))
  | setPriority p =>
    have hnone := hto (by simp) (by simp)
    have hset := h.setThread (c := σ.current) (f := fun th => { th with priority := p }) hnone hnone
    refine (hset.same hrep).mono fun t ht => ?_
    rcases ht with ht | rfl
    · exact hplain (by simp) (by simp) t ht
    · exact hsetting.2 ⟨p, .inl rfl⟩
  | setEffective p =>
    have hnone := hto (by simp) (by simp)
    have hset := h.setThread (c := σ.current) (f := fun th => { th with effectivePriority := p })
      hnone hnone
    refine (hset.same hrep).mono fun t ht => ?_
    rcases Classical.em (t = σ.current) with rfl | hne
    · exact hsetting.2 ⟨p, .inr rfl⟩
    · exact hstill t hne (ht.resolve_right hne)
  | updatePriority =>
    have hnone := hto (by simp) (by simp)
    have hmax : IsGreatest ((σ.setCode σ.current rest).Donors σ.current)
        ((σ.setCode σ.current rest).maxPriority σ.current) :=
      maxPriority_donors (σ := σ.setCode σ.current rest) (fun l => hlocks.owned σ.current l)
        (fun l w hw => hlocks.waiter hplaced hw) hok
    have hrestore := Equation.restore (c := σ.current) (h.mono fun t => .inl) hnone hmax
    exact (hrestore.same hrep).mono fun t ht => hstill t ht.2 ht.1
  | acquire l =>
    obtain ⟨-, σ₁, hdonate, hrep⟩ := hrep
    exact ((h.acquire (hto (by simp) (by simp)) hdonate).same hrep).mono
      (hplain (by simp) (by simp))
  | take l =>
    have hat : AtLock (σ.code σ.current) l := by
      rw [hcode]
      exact .inr rfl
    have hfree := (hlocks.taking σ.current l (by rw [hcode]; rfl)).2.1
    exact ((h.take hfree ((hlocks.waiting σ.current l).2 hat) hok).same hrep).mono
      (hplain (by simp) (by simp))
  | release l =>
    obtain ⟨hheld, sema, -, hrep⟩ := hrep
    have hnone : (((σ.setCode σ.current rest).drop l).threads σ.current).donatedTo = none := by
      simpa [Machine.drop, Machine.setThread, Machine.setCode] using hto (by simp) (by simp)
    have hdrop : Equation ((σ.setCode σ.current rest).drop l) fun t =>
        Setting (σ.code t) ∨ t = σ.current := h.drop hheld
    have hsemas : ((σ.setCode σ.current rest).drop l).semas = (σ.drop l).semas := rfl
    have hmaxeq : ((σ.setCode σ.current rest).drop l).maxPriority σ.current =
        (σ.drop l).maxPriority σ.current := maxPriority_congr hsemas (fun _ => rfl) _ _
    have hmax : IsGreatest (((σ.setCode σ.current rest).drop l).Donors σ.current)
        (((σ.setCode σ.current rest).drop l).maxPriority σ.current) := by
      rw [hmaxeq]
      exact hlocks.release_max hplaced hheld hok
    have hrelease : Equation (((σ.setCode σ.current rest).release l).setSema (.lock l) sema)
        fun t => Setting (σ.code t) ∧ t ≠ σ.current := hdrop.restore hnone hmax
    exact (hrelease.same hrep).mono fun t ht => hstill t ht.2 ht.1

/-! ### Runs -/

/-- What holds in every state that steps which lose no donation lead to. -/
structure DonationInv (σ : Machine) : Prop where
  placed : Placed σ
  prio : σ.policy = .prio
  formed : ∀ t, Formed (σ.code t)
  locks : LockInv σ
  equation : Equation σ fun t => Setting (σ.code t)

/-- The invariant holds after boot. -/
theorem donationInv_boot (values : ℕ → UInt32) (memory : ℕ → Bool) :
    DonationInv (boot .prio values memory) := by
  refine ⟨placed_boot (.inr rfl) values memory, rfl, fun _ => trivial,
    lockInv_boot .prio values memory, fun t _ => ?_⟩
  have heff : (boot .prio values memory).eff t = ((boot .prio values memory).threads t).priority := by
    unfold Machine.eff boot
    dsimp only
    split
    · rfl
    · split <;> rfl
  rw [heff]
  refine ⟨.inl rfl, ?_⟩
  rintro q (rfl | ⟨l, w, hl, -, -⟩)
  · exact le_rfl
  · cases hl

/-- One step keeps the invariant. -/
theorem DonationInv.step {σ σ' : Machine} {e : Event} (h : DonationInv σ) (hok : Donating σ e)
    (hs : MachineStep σ e σ') : DonationInv σ' := by
  obtain ⟨hplaced', hpolicy'⟩ := h.placed.step (fun _ _ => .inl h.prio) hs
  refine ⟨hplaced', hpolicy'.trans h.prio, formed_step h.placed h.formed hs,
    h.locks.step h.placed h.formed hs, ?_⟩
  cases hs with
  | call c hnil _ =>
    refine Equation.mono (σ := σ.setCode σ.current c.regions) h.equation fun t ht => ?_
    rcases Classical.em (t = σ.current) with rfl | hne
    · rw [hnil] at ht
      rcases ht with ⟨p, hp⟩ | hp
      · cases hp
      · cases hp
    · simpa only [Machine.setCode, Function.update_of_ne hne] using ht
  | run r rest hcode _ hrun =>
    exact h.equation.execute h.locks h.placed (hcode ▸ h.formed σ.current) hcode hok hrun
  | tick _ hrun =>
    rw [timerTick_code h.placed hrun]
    exact h.equation.same (timerTick_priorities h.placed hrun)
  | deviceUp n _ hrun =>
    obtain ⟨sema, -, hsame⟩ := semaUp_priorities h.placed.listed.implemented hrun
    rw [semaUp_code h.placed.listed.implemented hrun]
    exact Equation.same (σ := σ.setSema (.other n) sema) h.equation hsame

theorem Reached.donationInv {σ : Machine} (h : Reached .prio Donating σ) : DonationInv σ := by
  induction h with
  | boot values memory => exact donationInv_boot values memory
  | step _ hok hs ih => exact ih.step hok hs

/-- **The donation invariant**, in runs whose steps lose no donation: every thread
outside `thread_set_priority` has the highest of its own priority and of those of
the threads that wait for a lock it holds.  `thread_get_priority` returns it
exactly where none of these is above the caller's own priority. -/
theorem donation_of_donating {σ : Machine} (h : Reached .prio Donating σ) :
    (∀ t, ¬Setting (σ.code t) → IsGreatest (σ.Donors t) (σ.eff t)) ∧
      (¬Setting (σ.code σ.current) → (threadGetPriority σ = σ.eff σ.current ↔
        ∀ l w, σ.holder l = some σ.current → (σ.threads w).donatedTo = some l →
          σ.eff w ≤ (σ.threads σ.current).priority)) := by
  have hequation := h.donationInv.equation
  refine ⟨hequation, fun hsetting => ?_⟩
  obtain ⟨hmem, hmax⟩ := hequation σ.current hsetting
  constructor
  · intro heq l w hl hw
    exact (hmax (.inr ⟨l, w, hl, hw, rfl⟩)).trans_eq heq.symm
  · intro hle
    refine le_antisymm (hmax (.inl rfl)) ?_
    rcases hmem with heq | ⟨l, w, hl, hw, heq⟩
    · exact heq.le
    · exact heq.trans_le (hle l w hl hw)

/-- Only threads that were created wait for a lock. -/
theorem DonationInv.lt_of_waits {σ : Machine} (h : DonationInv σ) {w : ThreadId} {l : LockId}
    (hw : (σ.threads w).donatedTo = some l) : w < σ.nextThread := by
  refine not_le.1 fun hle => ?_
  have hat := (h.locks.waiting w l).1 hw
  rw [AtLock, (h.placed.coded.unborn w (.inl hle)).2.1] at hat
  rcases hat with heq | heq <;> cases heq

/-- `Donating`, computed. -/
def donatingCheck (σ : Machine) : Event → Bool
  | .run (.take l) => decide (∀ w < σ.nextThread, w ≠ σ.current →
      (σ.threads w).donatedTo = some l → σ.eff w ≤ σ.eff σ.current)
  | .run (.release l) => decide (∀ l' ∈ (σ.threads σ.current).donatedLocks.erase l,
      ∀ w < σ.nextThread, (σ.threads w).donatedTo = some l' → σ.eff w ≤ σ.left l)
  | .run .updatePriority => decide (∀ l' ∈ (σ.threads σ.current).donatedLocks,
      ∀ w < σ.nextThread, (σ.threads w).donatedTo = some l' → σ.eff w ≤ σ.maxPriority σ.current)
  | _ => true

theorem donating_of_check (σ : Machine) (e : Event) (h : Reached .prio Donating σ)
    (hcheck : donatingCheck σ e = true) : Donating σ e := by
  have hlt := fun {w l} => h.donationInv.lt_of_waits (w := w) (l := l)
  cases e with
  | run r =>
    cases r with
    | take l => exact fun w hne hw => of_decide_eq_true hcheck w (hlt hw) hne hw
    | release l => exact fun l' hl' w hw =>
        (covered_iff σ _ _ _).2 (of_decide_eq_true hcheck l' hl' w (hlt hw) hw)
    | updatePriority => exact fun l' hl' w hw =>
        (covered_iff σ _ _ _).2 (of_decide_eq_true hcheck l' hl' w (hlt hw) hw)
    | create _ | start _ | yieldTo _ | yield | setPriority _ | setEffective _ | down _ | tryDown _
    | up _ | acquire _ | sleep _ | sleepInsert | slept | block | resumed | unblock _ => trivial
  | call _ | tick | deviceUp _ => trivial

/-- `main` acquires lock 1 and creates a thread of priority 40, which waits for
the lock. -/
def waitForMain : List Event :=
  [.call (.lockAcquire 1), .run (.acquire 1), .run (.down (.lock 1)), .run (.take 1),
    .call (.create 40), .run (.create 40), .run (.acquire tidLock), .run (.down (.lock tidLock)),
    .run (.take tidLock), .run (.release tidLock), .run (.start 2), .run (.yieldTo 2),
    .call (.lockAcquire 1), .run (.acquire 1), .run (.down (.lock 1))]

/-- The waiting thread's 40 is donated to `main`. -/
theorem donation_main : ∃ σ, Reached .prio Donating σ ∧ σ.current = 0 ∧ σ.eff 0 = 40 ∧
    IsGreatest (σ.Donors 0) (σ.eff 0) := by
  have hrun : ((boot .prio (fun _ => 0) (fun _ => true)).afterAll donatingCheck waitForMain).map
      (fun σ => (σ.current, σ.eff 0, σ.code 0)) = some (0, 40, []) := by decide +kernel
  obtain ⟨σ, hσ, heq⟩ := Option.map_eq_some_iff.1 hrun
  simp only [Prod.mk.injEq] at heq
  obtain ⟨hcurrent, heff, hcode⟩ := heq
  have hreached := (Reached.boot (fun _ => 0) (fun _ => true)).afterAll donating_of_check hσ
  refine ⟨σ, hreached, hcurrent, heff, (donation_of_donating hreached).1 0 ?_⟩
  rw [hcode]
  simp [Setting]

/-- `thread_get_priority` does not see the donation. -/
theorem not_donation : ¬∀ σ, Reached .prio (fun _ _ => True) σ →
    (∀ t, ¬Setting (σ.code t) → IsGreatest (σ.Donors t) (σ.eff t)) ∧
      (¬Setting (σ.code σ.current) → threadGetPriority σ = σ.eff σ.current) := by
  intro hall
  have hrun : ((boot .prio (fun _ => 0) (fun _ => true)).afterAll (fun _ _ => true)
      waitForMain).map (fun σ => (σ.code σ.current, σ.eff σ.current, threadGetPriority σ)) =
      some ([], 40, 31) := by decide +kernel
  obtain ⟨σ, hσ, heq⟩ := Option.map_eq_some_iff.1 hrun
  simp only [Prod.mk.injEq] at heq
  obtain ⟨hcode, heff, hget⟩ := heq
  have hboot : Reached .prio (fun _ _ => True) (boot .prio (fun _ => 0) fun _ => true) :=
    .boot _ _
  have hreached := hboot.afterAll (fun _ _ _ _ => trivial) hσ
  have hequal := (hall σ hreached).2 (by simp [hcode, Setting])
  rw [heff, hget] at hequal
  exact absurd hequal (by decide)

end Threads
end CS162

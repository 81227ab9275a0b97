/-
# Donation along a chain of waits

`projects1-3/src/threads/thread.c`, lines 272-287, for any threads and locks.

`recurse_donate` goes from a thread to the holder of the lock it waits for, and on, as long as it
raises somebody.  Where only the waits of `t` may have holders below them, it leaves no such wait
behind, and it raises nobody but threads on the chain of `t`, to the priority of `t`
(`recurseDonate_covers`).  In a cycle of waits it stops at `t` at the latest.
-/

import CS162.Threads.Donation
import Mathlib.Logic.Relation

namespace CS162
namespace Threads

open CS162.Basis CS162.Lib

/-- `w` waits for a lock that `t` holds. -/
def Machine.Waits (σ : Machine) (w t : ThreadId) : Prop := σ.waitsOn w = some t

/-- Every holder of a lock is at least at the priority of the threads that wait for the lock,
those in `X` left out. -/
def Machine.Covers (σ : Machine) (X : ThreadId → Prop) : Prop :=
  ∀ w t, ¬X w → σ.Waits w t → σ.eff w ≤ σ.eff t

/-- The thread is as before, or it was on the chain of `t` and below it and has been raised to
the priority of `t`. -/
def RaisedBy (σ : Machine) (t : ThreadId) (σ' : Machine) (u : ThreadId) : Prop :=
  σ'.threads u = σ.threads u ∨
    Relation.TransGen σ.Waits t u ∧ σ.eff u < σ.eff t ∧
      σ'.threads u = { σ.threads u with effectivePriority := σ.eff t }

/-- `recurse_donate`, called for `t`, has come to `curr`. -/
structure ChainAt (σ : Machine) (t curr : ThreadId) (τ : Machine) : Prop where
  waits : ∀ w, τ.waitsOn w = σ.waitsOn w
  chain : Relation.ReflTransGen σ.Waits t curr
  covers : τ.Covers fun w => w = curr
  raised : ∀ u, RaisedBy σ t τ u

theorem threads_raise (σ : Machine) (t : ThreadId) (p : ℤ) (u : ThreadId) :
    (σ.raise t p).threads u =
      if u = t then { σ.threads t with effectivePriority := p } else σ.threads u := by
  have hset : (σ.setEff t p).threads u =
      if u = t then { σ.threads t with effectivePriority := p } else σ.threads u := by
    unfold Machine.setEff Machine.setThread
    exact Function.update_apply ..
  unfold Machine.raise
  split
  · exact hset
  · exact hset

/-- A turn raises the next thread of the chain, which is the only one that may now be above a
holder. -/
theorem ChainAt.turn {σ τ : Machine} {t curr next : ThreadId} (h : ChainAt σ t curr τ)
    (hp : τ.eff curr = σ.eff t) (hnext : τ.waitsOn curr = some next)
    (hlt : τ.eff next < σ.eff t) : ChainAt σ t next (τ.raise next (σ.eff t)) := by
  have hstep : σ.Waits curr next := (h.waits curr).symm.trans hnext
  have hchain : Relation.TransGen σ.Waits t next := Relation.TransGen.tail' h.chain hstep
  refine ⟨fun w => ?_, h.chain.tail hstep, fun w u hw hwaits => ?_, fun u => ?_⟩
  · rw [waitsOn_raise]
    exact h.waits w
  · have hwaits' : τ.Waits w u := (waitsOn_raise τ next w _).symm.trans hwaits
    rw [eff_raise, eff_raise, if_neg hw]
    -- what `w` was covered by before, if it is not `curr`
    have hold : w ≠ curr → τ.eff w ≤ τ.eff u := fun hwc => h.covers w u hwc hwaits'
    by_cases hu : u = next
    · rw [if_pos hu]
      by_cases hwc : w = curr
      · exact hwc ▸ hp.le
      · exact (hold hwc).trans (hu ▸ hlt.le)
    · rw [if_neg hu]
      refine hold fun hwc => hu ?_
      rw [hwc] at hwaits'
      exact Option.some.inj (hwaits'.symm.trans hnext)
  · unfold RaisedBy
    rw [threads_raise]
    by_cases hu : u = next
    · subst hu
      rw [if_pos rfl]
      rcases h.raised u with hsame | ⟨-, -, hraised⟩
      · have heff : τ.eff u = σ.eff u := congrArg Thread.effectivePriority hsame
        exact .inr ⟨hchain, heff ▸ hlt, by rw [hsame]⟩
      · -- a thread that has been raised is not below `t`
        have heff : τ.eff u = σ.eff t := by rw [Machine.eff, hraised]
        exact absurd heff hlt.ne
    · rw [if_neg hu]
      exact h.raised u

/-- **`recurse_donate`** ends, with no holder below a thread that waits for its lock, and has
raised only threads on the chain of `t` that were below `t`, to the priority of `t`. -/
theorem recurseDonate_covers {σ : Machine} {t : ThreadId} (hlisted : σ.HoldersListed)
    (hcovers : σ.Covers fun w => w = t) :
    Returns (recurseDonate t) σ fun _ σ' =>
      σ'.Covers (fun _ => False) ∧ ∀ u, RaisedBy σ t σ' u := by
  have hcard : (σ.below (σ.eff t)).card < σ.allList.length + 1 :=
    Nat.lt_succ_of_le ((Finset.card_filter_le _ _).trans (List.toFinset_card_le _))
  obtain ⟨σ', hrun⟩ := donateLoop_returns hlisted rfl hcard
  have hstart : ChainAt σ t t σ := ⟨fun _ => rfl, .refl, hcovers, fun _ => .inl rfl⟩
  obtain ⟨last, hdonated, hp, hlast⟩ := donateLoop_rule (p := σ.eff t)
    (I := fun curr τ => ChainAt σ t curr τ)
    (fun τ curr next hI hp hnext hlt _ => hI.turn hp hnext hlt) hrun rfl hstart
  refine ⟨(), σ', hrun, fun w u _ hwaits => ?_, hdonated.raised⟩
  by_cases hw : w = last
  · rw [hw] at hwaits ⊢
    exact hp.trans_le (hlast u hwaits)
  · exact hdonated.covers w u hw hwaits

/-- Thread 0, of priority 31, and thread 1, of priority 0, wait for each other. -/
def waitForEachOther : Machine :=
  { ((boot .prio (fun _ => 0) fun _ => true).setThread 0 fun th => { th with donatedTo := some 1 }).setThread
      1 fun th => { th with donatedTo := some 0, status := .blocked } with
    holder := fun l => if l = 0 then some 0 else if l = 1 then some 1 else none }

/-- The loop ends on the cycle, with thread 1 raised. -/
theorem recurseDonate_covers_cycle :
    Returns (recurseDonate 0) waitForEachOther fun _ σ' =>
      σ'.Covers (fun _ => False) ∧ ∀ u, RaisedBy waitForEachOther 0 σ' u := by
  refine recurseDonate_covers (fun l t hl => ?_) fun w t hw hwaits => ?_
  · have hl' : (if l = 0 then some 0 else if l = 1 then some 1 else none) = some t := hl
    split_ifs at hl'
    · obtain rfl := Option.some.inj hl'
      exact ⟨by decide, fun hready => absurd hready (by decide)⟩
    · obtain rfl := Option.some.inj hl'
      exact ⟨by decide, fun hready => absurd hready (by decide)⟩
  · -- thread 0 is above thread 1, which alone waits for it
    by_cases hw₁ : w = 1
    · subst hw₁
      have ht : waitForEachOther.waitsOn 1 = some 0 := rfl
      obtain rfl := Option.some.inj (ht.symm.trans hwaits)
      decide
    · have hnone : waitForEachOther.waitsOn w = none := by
        simp [waitForEachOther, Machine.waitsOn, Machine.setThread, boot, initThread, hw, hw₁]
      cases hnone.symm.trans hwaits

end Threads
end CS162

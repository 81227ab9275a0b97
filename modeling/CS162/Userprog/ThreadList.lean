/-
# The thread list of a process

`thread_list` over the steps of `Joins`: entries are pushed by `start_process` and
`start_pthread` and removed in the loop of `pthread_exit_main` alone, and a thread is
destroyed as soon as it has called `thread_exit`.

The list names live threads throughout a run if and only if every thread's entry has
been removed when it calls `thread_exit` (`threadList_live`).
-/

import CS162.Userprog.Joins

namespace CS162
namespace Userprog

open CS162.Basis

/-- The entries of the list refer to threads that have not been destroyed. -/
def Pthreads.NamesLive (S : Pthreads) : Prop :=
  S.Alive → ∀ t ∈ S.threadList, S.place t ≠ .gone

/-- A thread that calls `thread_exit` is not on the list. -/
def UnlistedExit (S : Pthreads) (i : ℕ × ThreadAct) : Prop :=
  i.2 = .threadExit → S.Alive → S.place i.1 = .dying → i.1 ∉ S.threadList

/-- The place is the main thread's alone. -/
def Place.mains : Place → Bool
  | .running p | .joining _ _ p | .joined _ _ p => p ≠ .user
  | _ => false

/-- The place is that of another thread. -/
def Place.others : Place → Bool
  | .unborn | .starting | .settingUp _ | .dying => true
  | _ => false

/-- Who is where. -/
structure Places (S : Pthreads) : Prop where
  mains : ∀ t, (S.place t).mains = true → t = S.main
  others : (S.place S.main).others = false

variable {S S' : Pthreads} {t : ℕ} {p : Place}

/-- A thread moves. -/
theorem Places.goto (h : Places S) (hmains : p.mains = true → t = S.main)
    (hothers : t = S.main → p.others = false) : Places (S.goto t p) where
  mains u hu := by
    by_cases hut : u = t
    · subst hut
      rw [goto_place_self] at hu
      exact hmains hu
    · rw [goto_place_of_ne hut] at hu
      exact h.mains u hu
  others := by
    by_cases ht : S.main = t
    · change ((S.goto t p).place S.main).others = false
      rw [ht, goto_place_self]
      exact hothers ht.symm
    · exact (congrArg Place.others (goto_place_of_ne ht)).trans h.others

/-- Everything but the places is left out of account. -/
theorem Places.congr (h : Places S) (hplace : S'.place = S.place) (hmain : S'.main = S.main) :
    Places S' where
  mains u hu := by
    rw [hmain]
    exact h.mains u (hplace ▸ hu)
  others := by
    rw [hmain, hplace]
    exact h.others

theorem Places.ne_main (h : Places S) (ht : (S.place t).others = true) : t ≠ S.main := by
  rintro rfl
  rw [h.others] at ht
  cases ht

@[simp] theorem exitUp_main : (S.exitUp t).main = S.main := by
  unfold Pthreads.exitUp
  cases S.find t <;> rfl

theorem exitUp_threadList : (S.exitUp t).threadList = S.threadList := by
  unfold Pthreads.exitUp
  cases S.find t <;> rfl

theorem pthreadJoin_frame {tid r : ℕ} (h : S.pthreadJoin tid = some (r, S')) :
    S'.place = S.place ∧ S'.main = S.main ∧ S'.threadList = S.threadList := by
  unfold Pthreads.pthreadJoin at h
  cases hfind : S.find tid with
  | none =>
    rw [hfind] at h
    cases h
  | some u =>
    rw [hfind] at h
    dsimp only at h
    split_ifs at h
    cases h
    exact ⟨rfl, rfl, rfl⟩

/-- A return from `pthread_join`, or a wait in it. -/
theorem JoinPoint.next_ne_user {q : JoinPoint} (h : q.next ≠ .user) : q ≠ .user := by
  rintro rfl
  exact h rfl

/-- Only the main thread comes to the places that are the main thread's. -/
theorem Places.step {i : ℕ × ThreadAct} (hi : JoinInv S) (h : Places S) (hstep : PthreadStep S i S') :
    Places S' := by
  have hpoint : ∀ {t q}, S.place t = .running q → q ≠ .user → t = S.main := fun {t q} hplace hq =>
    h.mains t (by rw [hplace]; exact decide_eq_true hq)
  cases hstep with
  | @create t _ hplace =>
    have hne : S.nextTid ≠ S.main := h.ne_main (by rw [hi.unborn _ (Nat.le_refl _)]; rfl)
    have hnew := h.goto (t := S.nextTid) (p := .starting) nofun fun h => absurd h hne
    exact (hnew.goto (t := t) (p := .executing S.nextTid) nofun fun _ => rfl).congr rfl rfl
  | executed _ _ _ => exact h.goto nofun fun _ => rfl
  | start _ hplace =>
    have hne := h.ne_main (by rw [hplace]; rfl)
    exact (@Places.congr S (S.started _) h rfl rfl).goto nofun fun h => absurd h hne
  | setUp _ _ => exact h.goto nofun fun _ => rfl
  | setUpFailed _ hplace =>
    have hne := h.ne_main (by rw [hplace]; rfl)
    exact (@Places.congr S (S.fail _ _) h rfl rfl).goto nofun fun h => absurd h hne
  | joinRefused tid _ hplace _ _ =>
    refine (h.goto (fun hp => ?_) fun _ => rfl).congr rfl rfl
    exact hpoint hplace (JoinPoint.next_ne_user (of_decide_eq_true hp))
  | join tid _ hplace _ hjoin =>
    obtain ⟨hp, hm, -⟩ := pthreadJoin_frame hjoin
    refine (h.congr hp hm).goto (fun hmains => ?_) fun _ => rfl
    rw [hm]
    exact hpoint hplace (of_decide_eq_true hmains)
  | down _ hplace _ =>
    refine (@Places.congr S (S.setElem _ _) h rfl rfl).goto (fun hp => ?_) fun _ => rfl
    exact h.mains _ (by rw [hplace]; exact hp)
  | remove _ hplace =>
    refine (h.goto (fun hp => ?_) fun _ => rfl).congr rfl rfl
    refine h.mains _ ?_
    rw [hplace]
    exact decide_eq_true (JoinPoint.next_ne_user (of_decide_eq_true hp))
  | unlist _ hplace =>
    exact (h.goto (fun _ => hpoint hplace nofun) fun _ => rfl).congr rfl rfl
  | exit _ _ hne =>
    refine (h.congr exitUp_place exitUp_main).goto nofun fun ht => ?_
    rw [exitUp_main] at ht
    exact absurd ht hne
  | exitMain _ _ =>
    exact (h.congr exitUp_place exitUp_main).goto (fun _ => exitUp_main.symm) fun _ => rfl
  | processExit _ hplace _ =>
    refine (h.congr exitUp_place exitUp_main).goto (fun _ => ?_) fun _ => rfl
    rw [exitUp_main]
    exact hpoint hplace nofun
  | finish _ _ _ => exact h.goto nofun fun _ => rfl
  | threadExit _ _ => exact h.goto nofun fun _ => rfl

/-! ### Entries -/

/-- A thread moves, but is not destroyed. -/
theorem goto_live (h : ∀ u ∈ S.threadList, S.place u ≠ .gone) (hp : p ≠ .gone) :
    ∀ u ∈ S.threadList, (S.goto t p).place u ≠ .gone := by
  intro u hu
  by_cases hut : u = t
  · rw [hut, goto_place_self]
    exact hp
  · rw [goto_place_of_ne hut]
    exact h u hu

theorem exitUp_live (h : ∀ u ∈ S.threadList, S.place u ≠ .gone) :
    ∀ u ∈ (S.exitUp t).threadList, (S.exitUp t).place u ≠ .gone := by
  rw [exitUp_place, exitUp_threadList]
  exact h

/-- **Exactly the exits of threads on the list leave a dangling entry.** -/
theorem namesLive_iff {i : ℕ × ThreadAct} (hplaces : Places S) (h : S.NamesLive) :
    (∀ S', PthreadStep S i S' → S'.NamesLive) ↔ UnlistedExit S i := by
  constructor
  · intro hstep hact halive hplace hmem
    obtain ⟨t, a⟩ := i
    cases hact
    refine hstep _ (.threadExit halive hplace) (fun hgone => ?_) t hmem goto_place_self
    have hne : S.main ≠ t := (hplaces.ne_main (by rw [hplace]; rfl)).symm
    exact halive ((goto_place_of_ne hne).symm.trans hgone)
  · intro hcond S' hstep
    cases hstep with
    | create halive _ =>
      exact fun _ => goto_live (S := S.goto S.nextTid .starting) (goto_live (h halive) nofun) nofun
    | executed halive _ _ => exact fun _ => goto_live (h halive) nofun
    | start halive _ =>
      intro _ u hu
      rcases List.mem_append.1 hu with hu | hu
      · exact goto_live (p := .settingUp _) (h halive) nofun u hu
      · rw [List.mem_singleton.1 hu, goto_place_self]
        exact nofun
    | setUp halive _ => exact fun _ => goto_live (h halive) nofun
    | setUpFailed halive _ => exact fun _ => goto_live (h halive) nofun
    | joinRefused tid halive _ _ _ => exact fun _ => goto_live (h halive) nofun
    | @join t r q S' tid halive _ _ hjoin =>
      obtain ⟨hp, -, hl⟩ := pthreadJoin_frame hjoin
      have hlive : ∀ u ∈ S'.threadList, S'.place u ≠ .gone := by
        rw [hp, hl]
        exact h halive
      exact fun _ => goto_live (p := .joining _ _ _) hlive nofun
    | down halive _ _ => exact fun _ => goto_live (h halive) nofun
    | remove halive _ => exact fun _ => goto_live (h halive) nofun
    | unlist halive _ =>
      exact fun _ u hu => goto_live (p := .running _) (h halive) nofun u (List.mem_of_mem_tail hu)
    | exit halive _ _ => exact fun _ => goto_live (p := .dying) (exitUp_live (h halive)) nofun
    | exitMain halive _ => exact fun _ => goto_live (p := .running _) (exitUp_live (h halive)) nofun
    | processExit halive _ _ => exact fun _ => goto_live (p := .running _) (exitUp_live (h halive)) nofun
    | finish halive hplace _ =>
      intro halive'
      have ht := hplaces.mains _ (by rw [hplace]; rfl)
      rw [ht] at halive'
      exact absurd goto_place_self halive'
    | @threadExit t halive hplace =>
      intro _ u hu
      have hne : u ≠ t := fun hut => hcond rfl halive hplace (hut ▸ hu)
      rw [goto_place_of_ne hne]
      exact h halive u hu

/-! ### Whole runs -/

/-- What holds of runs. -/
structure ListInv (S : Pthreads) : Prop where
  joins : JoinInv S
  places : Places S
  live : S.NamesLive

theorem listInv_start (main : ℕ) : ListInv (.start main) where
  joins := joinInv_start main
  places := by
    refine ⟨fun t ht => ?_, ?_⟩
    · by_contra hne
      change t ≠ main at hne
      simp [Pthreads.start, hne, Place.mains] at ht
    · simp [Pthreads.start, Place.others]
  live _ t ht := by
    rw [List.mem_singleton.1 ht]
    simp [Pthreads.start]

/-- **The list names live threads in a run if and only if no listed thread exits.** -/
theorem threadList_live (main : ℕ) (acts : List (ℕ × ThreadAct)) :
    Throughout PthreadStep (fun S i => ∀ S', PthreadStep S i S' → S'.NamesLive) (.start main) acts ↔
      Throughout PthreadStep UnlistedExit (.start main) acts := by
  refine throughout_iff (I := ListInv) ?_ ?_ (listInv_start main) acts
  · intro S i S' hi hcond hstep
    exact ⟨hi.joins.step hstep, hi.places.step hi.joins hstep,
      (namesLive_iff hi.places hi.live).2 hcond S' hstep⟩
  · exact fun hi => namesLive_iff hi.places hi.live

/-- A thread that cannot be set up leaves its entry. -/
theorem not_namesLive : ¬∀ main S, PthreadReach main S → S.NamesLive := by
  intro h
  have hstart : PthreadReach 1 (.start 1) := .refl
  have hcreate := hstart.step (.create (t := 1) nofun rfl)
  have hfailed := (hcreate.step (.start (t := 2) nofun rfl)).step
    (.setUpFailed (t := 2) (r := 1) nofun rfl)
  have hgone := hfailed.step (.threadExit (t := 2) nofun rfl)
  exact h 1 _ hgone nofun 2 (by decide) rfl

end Userprog
end CS162

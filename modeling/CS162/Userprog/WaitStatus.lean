/-
# Parents, children and their wait status

`projects1-3/src/userprog/process.c`, lines 77-182 (`process_execute` and
`start_process` for a child that loads), 232-273 (`release_child`,
`process_wait`) and 341-374 (`process_exit`), and `sys_exit` in `syscall.c`.

One parent and its children, each with the `struct wait_status` it shares with
the parent.  A region under the status's lock and a semaphore operation is one
step, and either party takes the next step.  `process_wait` looks at the elements
of `children` alone.  `allocate_tid` gives every child a pid of its own.

A status is freed once, when both parties have released it
(`waitStatus_lifecycle`).
-/

import Mathlib.Algebra.Group.Nat.Defs
import Mathlib.Data.List.Basic
import Mathlib.Logic.Function.Basic
import Mathlib.Logic.Relation
import Mathlib.Tactic.Common

namespace CS162
namespace Userprog

/-- A child and its wait status, by the order of the calls of `process_execute`. -/
abbrev ChildId := ℕ

/-- `struct wait_status`. -/
structure WaitStatus where
  refCnt : ℤ
  pid : ℤ
  exitCode : ℤ
  /-- The value of the semaphore `dead`. -/
  dead : ℕ

/-- Where the parent is. -/
inductive ParentPoint where
  | idle
  /-- In `process_execute`, about to put the status on `children`. -/
  | executing (c : ChildId)
  /-- In `process_wait`, in `sema_down (&cs->dead)`. -/
  | waiting (c : ChildId)
  /-- Past that `sema_down`. -/
  | reading (c : ChildId)
  /-- In the `release_child` of `process_wait`, before and after its region. -/
  | releasing (c : ChildId) (exitCode : ℤ)
  | released (c : ChildId) (exitCode newRef : ℤ)
  /-- In `process_exit`, at the test of the loop over `children`. -/
  | exiting
  /-- In the `release_child` of that loop, before and after its region. -/
  | dropping (c : ChildId)
  | dropped (c : ChildId) (newRef : ℤ)
  /-- Past that loop. -/
  | gone
deriving DecidableEq

/-- Where a child is. -/
inductive ChildPoint where
  /-- Not created. -/
  | unborn
  | running
  /-- In `process_exit`, about to call `sema_up (&cs->dead)`. -/
  | exiting
  /-- In `release_child`, before and after its region. -/
  | releasing
  | released (newRef : ℤ)
  | gone
deriving DecidableEq

/-- A parent and its children. -/
structure Family where
  status : ChildId → WaitStatus
  /-- `children` in the parent's `struct process`. -/
  children : List ChildId
  parent : ParentPoint
  child : ChildId → ChildPoint
  /-- History: how many times each status has been freed. -/
  freed : ChildId → ℕ
  /-- History: the exit code each child last set, -1 at first. -/
  lastCode : ChildId → ℤ
  /-- History: what the calls of `process_wait` on each child's pid returned. -/
  results : ChildId → List ℤ

/-- A parent without children. -/
def Family.init : Family where
  status _ := ⟨0, 0, 0, 0⟩
  children := []
  parent := .idle
  child _ := .unborn
  freed _ := 0
  lastCode _ := -1
  results _ := []

/-- Write to a status. -/
@[simp] def Family.setStatus (σ : Family) (c : ChildId) (f : WaitStatus → WaitStatus) : Family :=
  { σ with status := Function.update σ.status c (f (σ.status c)) }

/-- The parties move. -/
@[simp] def Family.goto (σ : Family) (p : ParentPoint) : Family := { σ with parent := p }
@[simp] def Family.childGoto (σ : Family) (c : ChildId) (p : ChildPoint) : Family :=
  { σ with child := Function.update σ.child c p }

/-- The initialisation in `start_process`. -/
@[simp] def Family.born (σ : Family) (c : ChildId) (pid : ℤ) : Family :=
  { σ.setStatus c fun _ => ⟨2, pid, -1, 0⟩ with lastCode := Function.update σ.lastCode c (-1) }

/-- `list_push_back (&children, ...)`. -/
@[simp] def Family.push (σ : Family) (c : ChildId) : Family := { σ with children := σ.children ++ [c] }

/-- The first child on `children` with this pid. -/
def Family.find (σ : Family) (pid : ℤ) : Option ChildId :=
  σ.children.find? fun c => (σ.status c).pid = pid

/-- `list_remove`. -/
@[simp] def Family.remove (σ : Family) (c : ChildId) : Family := { σ with children := σ.children.erase c }

/-- `sema_down` and `sema_up` of `dead`. -/
@[simp] def Family.down (σ : Family) (c : ChildId) : Family :=
  σ.setStatus c fun w => { w with dead := w.dead - 1 }
@[simp] def Family.up (σ : Family) (c : ChildId) : Family :=
  σ.setStatus c fun w => { w with dead := w.dead + 1 }

/-- The region of `release_child`. -/
@[simp] def Family.unref (σ : Family) (c : ChildId) : Family :=
  σ.setStatus c fun w => { w with refCnt := w.refCnt - 1 }

/-- `release_child` after its region. -/
def Family.freeAt (σ : Family) (c : ChildId) (newRef : ℤ) : Family :=
  if newRef = 0 then { σ with freed := Function.update σ.freed c (σ.freed c + 1) } else σ

/-- It is freed if there are no references, and nothing else changes. -/
theorem Family.freeAt_eq (σ : Family) (c : ChildId) (newRef : ℤ) :
    σ.freeAt c newRef = { σ with
      freed := Function.update σ.freed c (σ.freed c + if newRef = 0 then 1 else 0) } := by
  unfold freeAt
  split_ifs
  · rfl
  · rw [Nat.add_zero, Function.update_eq_self]

/-- A `process_wait` on `pid` returns. -/
def Family.answer (σ : Family) (pid code : ℤ) : Family :=
  { σ with results := fun c =>
      if σ.child c ≠ .unborn ∧ (σ.status c).pid = pid then σ.results c ++ [code]
      else σ.results c }

/-- `sys_exit` sets the exit code. -/
@[simp] def Family.setCode (σ : Family) (c : ChildId) (code : ℤ) : Family :=
  { σ.setStatus c fun w => { w with exitCode := code } with
    lastCode := Function.update σ.lastCode c code }

/-- A party takes its next step. -/
inductive FamilyStep : Family → Family → Prop where
  /-- `process_execute`, up to its `sema_down`, of a child that loads. -/
  | execute {σ : Family} (c : ChildId) (pid : ℤ) :
      σ.parent = .idle → σ.child c = .unborn →
      (∀ d, σ.child d ≠ .unborn → (σ.status d).pid ≠ pid) →
      FamilyStep σ (((σ.born c pid).childGoto c .running).goto (.executing c))
  | executed {σ : Family} {c : ChildId} :
      σ.parent = .executing c → FamilyStep σ ((σ.push c).goto .idle)
  | wait {σ : Family} {c : ChildId} (pid : ℤ) :
      σ.parent = .idle → σ.find pid = some c → FamilyStep σ ((σ.remove c).goto (.waiting c))
  | waitNone {σ : Family} (pid : ℤ) :
      σ.parent = .idle → σ.find pid = none → FamilyStep σ (σ.answer pid (-1))
  | down {σ : Family} {c : ChildId} :
      σ.parent = .waiting c → 0 < (σ.status c).dead → FamilyStep σ ((σ.down c).goto (.reading c))
  | read {σ : Family} {c : ChildId} :
      σ.parent = .reading c → FamilyStep σ (σ.goto (.releasing c (σ.status c).exitCode))
  | release {σ : Family} {c : ChildId} {code : ℤ} :
      σ.parent = .releasing c code →
      FamilyStep σ ((σ.unref c).goto (.released c code ((σ.status c).refCnt - 1)))
  | waited {σ : Family} {c : ChildId} {code newRef : ℤ} :
      σ.parent = .released c code newRef →
      FamilyStep σ (((σ.freeAt c newRef).answer (σ.status c).pid code).goto .idle)
  | exit {σ : Family} : σ.parent = .idle → FamilyStep σ (σ.goto .exiting)
  | drop {σ : Family} {c : ChildId} {rest : List ChildId} :
      σ.parent = .exiting → σ.children = c :: rest →
      FamilyStep σ ((σ.remove c).goto (.dropping c))
  | dropRelease {σ : Family} {c : ChildId} :
      σ.parent = .dropping c →
      FamilyStep σ ((σ.unref c).goto (.dropped c ((σ.status c).refCnt - 1)))
  | dropFree {σ : Family} {c : ChildId} {newRef : ℤ} :
      σ.parent = .dropped c newRef → FamilyStep σ ((σ.freeAt c newRef).goto .exiting)
  | exited {σ : Family} :
      σ.parent = .exiting → σ.children = [] → FamilyStep σ (σ.goto .gone)
  | setCode {σ : Family} (c : ChildId) (code : ℤ) :
      σ.child c = .running → FamilyStep σ (σ.setCode c code)
  | childExit {σ : Family} (c : ChildId) :
      σ.child c = .running → FamilyStep σ (σ.childGoto c .exiting)
  | childUp {σ : Family} (c : ChildId) :
      σ.child c = .exiting → FamilyStep σ ((σ.up c).childGoto c .releasing)
  | childRelease {σ : Family} (c : ChildId) :
      σ.child c = .releasing →
      FamilyStep σ ((σ.unref c).childGoto c (.released ((σ.status c).refCnt - 1)))
  | childFree {σ : Family} (c : ChildId) {newRef : ℤ} :
      σ.child c = .released newRef → FamilyStep σ ((σ.freeAt c newRef).childGoto c .gone)

/-- The states reached, with the steps of the parties in any order. -/
inductive FamilyReach : Family → Prop where
  | init : FamilyReach .init
  | step {σ σ' : Family} : FamilyReach σ → FamilyStep σ σ' → FamilyReach σ'

/-! ### Who holds a status -/

/-- The status the parent is working on. -/
def ParentPoint.about : ParentPoint → Option ChildId
  | .executing c | .waiting c | .reading c | .releasing c _ | .released c _ _ | .dropping c
  | .dropped c _ => some c
  | .idle | .exiting | .gone => none

/-- The status the parent holds outside `children`. -/
def ParentPoint.holds : ParentPoint → Option ChildId
  | .executing c | .waiting c | .reading c | .releasing c _ | .dropping c => some c
  | _ => none

/-- The status the parent is about to free. -/
def ParentPoint.frees : ParentPoint → Option ChildId
  | .released c _ newRef | .dropped c newRef => if newRef = 0 then some c else none
  | _ => none

/-- The child holds its status. -/
def ChildPoint.holds : ChildPoint → Bool
  | .running | .exiting | .releasing => true
  | _ => false

/-- The child is about to free its status. -/
def ChildPoint.frees : ChildPoint → Bool
  | .released newRef => newRef = 0
  | _ => false

/-- The child has exited: it has called `sema_up (&cs->dead)`. -/
def ChildPoint.exited : ChildPoint → Bool
  | .releasing | .released _ | .gone => true
  | _ => false

/-- How often the parent holds the status. -/
def Family.parentRefs (σ : Family) (c : ChildId) : ℕ :=
  σ.children.count c + (σ.parent.holds == some c).toNat

/-- The parent may still use the status. -/
def Family.ParentUses (σ : Family) (c : ChildId) : Prop :=
  c ∈ σ.children ∨ σ.parent.holds = some c ∨ σ.parent.frees = some c

/-- The child may still use the status. -/
def Family.ChildUses (σ : Family) (c : ChildId) : Prop :=
  (σ.child c).holds = true ∨ (σ.child c).frees = true

/-- What the parent has done about the child's exit. -/
inductive Stage where
  /-- Nothing yet, or it waits. -/
  | pending
  /-- It returns from `process_wait`, with this code if it has read it. -/
  | answering (code : Option ℤ)
  /-- It has waited. -/
  | over
  /-- It exits. -/
  | abandoned
deriving DecidableEq

/-- The stage of a child that is not on `children`. -/
def ParentPoint.stage (c : ChildId) : ParentPoint → Stage
  | .idle => .over
  | .executing d | .waiting d => if d = c then .pending else .over
  | .reading d => if d = c then .answering none else .over
  | .releasing d code | .released d code _ => if d = c then .answering (some code) else .over
  | .exiting | .dropping _ | .dropped _ _ | .gone => .abandoned

def Family.stage (σ : Family) (c : ChildId) : Stage :=
  if c ∈ σ.children then .pending else σ.parent.stage c

/-- The first `process_wait` returned the last exit code and the others -1. -/
def Family.Answered (σ : Family) (c : ChildId) : Prop :=
  (σ.child c).exited = true ∧ ∃ n, σ.results c = σ.lastCode c :: List.replicate n (-1)

/-- The calls of `process_wait` on the child's pid so far. -/
def Family.Waited (σ : Family) (c : ChildId) : Stage → Prop
  | .pending => σ.results c = [] ∧ (σ.status c).dead = (σ.child c).exited.toNat
  | .answering code => (σ.child c).exited = true ∧ σ.results c = [] ∧
      ∀ v, code = some v → v = σ.lastCode c
  | .over => σ.Answered c
  | .abandoned => σ.results c = [] ∨ σ.Answered c

/-- What every step keeps of a child. -/
structure ChildInv (σ : Family) (c : ChildId) : Prop where
  refs : (σ.status c).refCnt = σ.parentRefs c + (σ.child c).holds.toNat
  one : σ.parentRefs c ≤ 1
  /-- The status is freed, or about to be, once there are no references. -/
  frees : σ.freed c + (σ.parent.frees == some c).toNat + (σ.child c).frees.toNat =
    ((σ.status c).refCnt == 0).toNat
  code : (σ.status c).exitCode = σ.lastCode c
  waited : σ.Waited c (σ.stage c)

/-- What every step keeps. -/
structure FamilyInv (σ : Family) : Prop where
  born : ∀ c, σ.child c ≠ .unborn → ChildInv σ c
  unborn : ∀ c, σ.child c = .unborn →
    c ∉ σ.children ∧ σ.parent.about ≠ some c ∧ σ.freed c = 0 ∧ σ.results c = []
  pids : ∀ c d, σ.child c ≠ .unborn → σ.child d ≠ .unborn →
    (σ.status c).pid = (σ.status d).pid → c = d
  apart : ∀ c, σ.parent.about = some c → c ∉ σ.children
  gone : σ.parent = .gone → σ.children = []

theorem familyInv_init : FamilyInv .init where
  born c h := absurd rfl h
  unborn c _ := ⟨List.not_mem_nil, by simp [Family.init, ParentPoint.about], rfl, rfl⟩
  pids c d h := absurd rfl h
  apart c _ := List.not_mem_nil
  gone _ := rfl

/-- A child whose status, points and results are as they were. -/
theorem ChildInv.congr {σ σ' : Family} {c : ChildId} (h : ChildInv σ c)
    (hstatus : σ'.status c = σ.status c) (hrefs : σ'.parentRefs c = σ.parentRefs c)
    (hfrees : (σ'.parent.frees == some c) = (σ.parent.frees == some c))
    (hchild : σ'.child c = σ.child c) (hfreed : σ'.freed c = σ.freed c)
    (hlast : σ'.lastCode c = σ.lastCode c) (hresults : σ'.results c = σ.results c)
    (hstage : σ'.stage c = σ.stage c) : ChildInv σ' c where
  refs := by rw [hstatus, hrefs, hchild]; exact h.refs
  one := hrefs ▸ h.one
  frees := by simp only [hfreed, hfrees, hchild, hstatus]; exact h.frees
  code := by rw [hstatus, hlast]; exact h.code
  waited := by
    have hwaited := h.waited
    rw [hstage]
    cases hs : σ.stage c <;>
      simpa only [Family.Waited, Family.Answered, hs, hstatus, hchild, hlast, hresults] using hwaited

/-- The parent is in the loop of `process_exit` or past it. -/
def ParentPoint.leaving : ParentPoint → Bool
  | .exiting | .dropping _ | .dropped _ _ | .gone => true
  | _ => false

theorem ParentPoint.holds_ne {p : ParentPoint} {c : ChildId} (h : p.about ≠ some c) :
    (p.holds == some c) = false := by
  cases p <;> simp_all [ParentPoint.about, ParentPoint.holds]

theorem ParentPoint.frees_ne {p : ParentPoint} {c : ChildId} (h : p.about ≠ some c) :
    (p.frees == some c) = false := by
  rw [beq_eq_false_iff_ne]
  cases p <;> simp_all [ParentPoint.about, ParentPoint.frees]

theorem ParentPoint.stage_of_ne {p : ParentPoint} {c : ChildId} (h : p.about ≠ some c) :
    p.stage c = if p.leaving then .abandoned else .over := by
  cases p <;> simp_all [ParentPoint.about, ParentPoint.stage, ParentPoint.leaving]

/-- **A step that concerns one child.** -/
theorem FamilyInv.at {σ σ' : Family} (h : FamilyInv σ) {d : ChildId}
    (hborn : σ'.child d ≠ .unborn) (hd : ChildInv σ' d)
    (hchild : ∀ c, c ≠ d → σ'.child c = σ.child c)
    (hstatus : ∀ c, c ≠ d → σ'.status c = σ.status c)
    (hfreed : ∀ c, c ≠ d → σ'.freed c = σ.freed c)
    (hlast : ∀ c, c ≠ d → σ'.lastCode c = σ.lastCode c)
    (hresults : ∀ c, c ≠ d → σ'.results c = σ.results c)
    (hcount : ∀ c, c ≠ d → σ'.children.count c = σ.children.count c)
    (hparent : σ'.parent = σ.parent ∨ σ'.parent.leaving = σ.parent.leaving ∧
      ∀ c, c ≠ d → σ.parent.about ≠ some c ∧ σ'.parent.about ≠ some c)
    (hpid : ∀ c, c ≠ d → σ.child c ≠ .unborn → (σ'.status d).pid ≠ (σ.status c).pid)
    (hapart : σ'.parent.about = some d → d ∉ σ'.children)
    (hgone : σ'.parent = .gone → σ'.children = []) : FamilyInv σ' := by
  have hmem : ∀ c, c ≠ d → (c ∈ σ'.children ↔ c ∈ σ.children) := fun c hc => by
    rw [← List.count_pos_iff, ← List.count_pos_iff, hcount c hc]
  constructor
  case born =>
    intro c hc
    by_cases hcd : c = d
    · exact hcd ▸ hd
    · have hold := h.born c (by rwa [hchild c hcd] at hc)
      refine hold.congr (hstatus c hcd) ?_ ?_ (hchild c hcd) (hfreed c hcd) (hlast c hcd)
        (hresults c hcd) ?_
      · rcases hparent with hp | ⟨-, hp⟩
        · simp only [Family.parentRefs, hcount c hcd, hp]
        · obtain ⟨hp, hp'⟩ := hp c hcd
          simp only [Family.parentRefs, hcount c hcd, ParentPoint.holds_ne hp,
            ParentPoint.holds_ne hp']
      · rcases hparent with hp | ⟨-, hp⟩
        · rw [hp]
        · obtain ⟨hp, hp'⟩ := hp c hcd
          simp only [ParentPoint.frees_ne hp, ParentPoint.frees_ne hp']
      · rcases hparent with hp | ⟨hleaving, hp⟩
        · simp only [Family.stage, hmem c hcd, hp]
        · obtain ⟨hp, hp'⟩ := hp c hcd
          simp only [Family.stage, hmem c hcd, ParentPoint.stage_of_ne hp,
            ParentPoint.stage_of_ne hp', hleaving]
  case unborn =>
    intro c hc
    have hcd : c ≠ d := fun hcd => hborn (hcd ▸ hc)
    obtain ⟨hout, habout, hzero, hnil⟩ := h.unborn c (by rwa [hchild c hcd] at hc)
    refine ⟨(hmem c hcd).not.2 hout, ?_, (hfreed c hcd).trans hzero, (hresults c hcd).trans hnil⟩
    rcases hparent with hp | ⟨-, hp⟩
    · rwa [hp]
    · exact (hp c hcd).2
  case pids =>
    have hne : ∀ c, c ≠ d → σ'.child c ≠ .unborn → (σ'.status c).pid ≠ (σ'.status d).pid := by
      intro c hcd hc
      rw [hstatus c hcd]
      exact (hpid c hcd (by rwa [hchild c hcd] at hc)).symm
    intro c e hc he hce
    by_cases hcd : c = d <;> by_cases hed : e = d
    · rw [hcd, hed]
    · exact absurd (hcd ▸ hce).symm (hne e hed he)
    · exact absurd (hed ▸ hce) (hne c hcd hc)
    · rw [hstatus c hcd, hstatus e hed] at hce
      exact h.pids c e (by rwa [hchild c hcd] at hc) (by rwa [hchild e hed] at he) hce
  case apart =>
    intro c hc
    by_cases hcd : c = d
    · exact hcd ▸ hapart (hcd ▸ hc)
    · rw [hmem c hcd]
      rcases hparent with hp | ⟨-, hp⟩
      · exact h.apart c (hp ▸ hc)
      · exact absurd hc (hp c hcd).2
  case gone => exact hgone

/-- A child that the parent is working on has been born. -/
theorem FamilyInv.born_of_about {σ : Family} (h : FamilyInv σ) {c : ChildId}
    (hc : σ.parent.about = some c ∨ c ∈ σ.children) : σ.child c ≠ .unborn := by
  intro hunborn
  obtain ⟨hout, habout, -⟩ := h.unborn c hunborn
  exact hc.elim habout hout

/-- A step of the parent about a child that is born. -/
theorem FamilyInv.parentStep {σ σ' : Family} (h : FamilyInv σ) {d : ChildId}
    (hborn : σ.child d ≠ .unborn) (hd : ChildInv σ' d) (hchild : σ'.child = σ.child)
    (hlast : σ'.lastCode = σ.lastCode)
    (hstatus : ∀ c, (c ≠ d → σ'.status c = σ.status c) ∧ (σ'.status c).pid = (σ.status c).pid)
    (hfreed : ∀ c, c ≠ d → σ'.freed c = σ.freed c)
    (hresults : ∀ c, c ≠ d → σ'.results c = σ.results c)
    (hcount : ∀ c, c ≠ d → σ'.children.count c = σ.children.count c)
    (hleaving : σ'.parent.leaving = σ.parent.leaving)
    (habout : ∀ c, c ≠ d → σ.parent.about ≠ some c ∧ σ'.parent.about ≠ some c)
    (hapart : σ'.parent.about = some d → d ∉ σ'.children) (hgone : σ'.parent ≠ .gone) :
    FamilyInv σ' := by
  refine h.at (hchild ▸ hborn) hd (fun c _ => by rw [hchild]) (fun c => (hstatus c).1) hfreed
    (fun c _ => by rw [hlast]) hresults hcount (.inr ⟨hleaving, habout⟩) (fun c hcd hc heq => ?_)
    hapart (fun hp => absurd hp hgone)
  rw [(hstatus d).2] at heq
  exact hcd (h.pids d c hborn hc heq).symm

/-- A step of a child. -/
theorem FamilyInv.childStep {σ σ' : Family} (h : FamilyInv σ) {d : ChildId}
    (hborn : σ.child d ≠ .unborn) (hborn' : σ'.child d ≠ .unborn) (hd : ChildInv σ' d)
    (hchild : ∀ c, c ≠ d → σ'.child c = σ.child c)
    (hstatus : ∀ c, (c ≠ d → σ'.status c = σ.status c) ∧ (σ'.status c).pid = (σ.status c).pid)
    (hfreed : ∀ c, c ≠ d → σ'.freed c = σ.freed c)
    (hlast : ∀ c, c ≠ d → σ'.lastCode c = σ.lastCode c) (hresults : σ'.results = σ.results)
    (hchildren : σ'.children = σ.children) (hparent : σ'.parent = σ.parent) : FamilyInv σ' := by
  refine h.at hborn' hd hchild (fun c => (hstatus c).1) hfreed hlast
    (fun c _ => by rw [hresults]) (fun c _ => by rw [hchildren]) (.inl hparent)
    (fun c hcd hc heq => ?_) (by rw [hparent, hchildren]; exact h.apart d)
    (by rw [hparent, hchildren]; exact h.gone)
  rw [(hstatus d).2] at heq
  exact hcd (h.pids d c hborn hc heq).symm

theorem Family.born_inv {σ : Family} {c : ChildId} (hout : c ∉ σ.children)
    (hfreed : σ.freed c = 0) (hresults : σ.results c = []) (pid : ℤ) :
    ChildInv (((σ.born c pid).childGoto c .running).goto (.executing c)) c where
  refs := by simp [Family.parentRefs, ParentPoint.holds, ChildPoint.holds, List.count_eq_zero.2 hout]
  one := by simp [Family.parentRefs, ParentPoint.holds, List.count_eq_zero.2 hout]
  frees := by simp [ParentPoint.frees, ChildPoint.frees, hfreed]
  code := by simp
  waited := by
    simp [Family.stage, hout, ParentPoint.stage, Family.Waited, hresults, ChildPoint.exited]

/-- A status that the parent holds is not on `children`. -/
theorem ChildInv.not_mem {σ : Family} {c : ChildId} (h : ChildInv σ c)
    (hholds : σ.parent.holds = some c) : c ∉ σ.children := by
  have hone := h.one
  simpa [Family.parentRefs, hholds, List.count_eq_zero] using hone

/-- The status goes on `children`. -/
theorem ChildInv.executed {σ : Family} {c : ChildId} (h : ChildInv σ c)
    (hparent : σ.parent = .executing c) : ChildInv ((σ.push c).goto .idle) c := by
  have hrefs := h.refs
  have hone := h.one
  have hfrees := h.frees
  have hwaited := h.waited
  have hout := h.not_mem (by rw [hparent]; rfl)
  simp only [Family.parentRefs, hparent, ParentPoint.holds, ParentPoint.frees,
    List.count_eq_zero.2 hout] at hrefs hfrees
  constructor
  case refs => simpa [Family.parentRefs, ParentPoint.holds, List.count_eq_zero.2 hout] using hrefs
  case one => simp [Family.parentRefs, ParentPoint.holds, List.count_eq_zero.2 hout]
  case frees => simpa [ParentPoint.frees] using hfrees
  case code => exact h.code
  case waited =>
    simpa [Family.stage, hout, hparent, ParentPoint.stage, Family.Waited] using hwaited

/-- A status is on `children` once. -/
theorem ChildInv.not_mem_erase {σ : Family} {c : ChildId} (h : ChildInv σ c) :
    c ∉ σ.children.erase c := by
  have hone := h.one
  rw [Family.parentRefs] at hone
  rw [← List.count_eq_zero, List.count_erase_self]
  omega

/-- The status comes off `children`, and the parent holds it. -/
theorem ChildInv.remove {σ : Family} {c : ChildId} (h : ChildInv σ c) {p : ParentPoint}
    (hmem : c ∈ σ.children) (hp : p.holds = some c) (hpf : p.frees = none)
    (hstage : p.stage c = .pending ∨ p.stage c = .abandoned) (hfrees : σ.parent.frees = none) :
    ChildInv ((σ.remove c).goto p) c := by
  have hrefs := h.refs
  have hone := h.one
  have hfreed := h.frees
  have hwaited := h.waited
  have hpos := List.count_pos_iff.2 hmem
  have hcount : σ.children.count c = 1 := by
    simp only [Family.parentRefs] at hone
    omega
  have hno : (σ.parent.holds == some c) = false := by
    rw [Family.parentRefs, hcount] at hone
    cases hh : σ.parent.holds == some c
    · rfl
    · simp [hh] at hone
  have hgone := h.not_mem_erase
  simp only [Family.parentRefs, hcount, hno, hfrees] at hrefs hfreed
  simp only [Family.stage, hmem, if_true, Family.Waited] at hwaited
  constructor
  case refs => simpa [Family.parentRefs, hp, List.count_eq_zero.2 hgone] using hrefs
  case one => simp [Family.parentRefs, hp, List.count_eq_zero.2 hgone]
  case frees => simpa [hpf] using hfreed
  case code => exact h.code
  case waited =>
    rcases hstage with hs | hs
    · simpa [Family.stage, hgone, hs, Family.Waited] using hwaited
    · simp [Family.stage, hgone, hs, Family.Waited, hwaited.1]

/-- The parent's `sema_down` succeeds: the child has exited. -/
theorem ChildInv.down {σ : Family} {c : ChildId} (h : ChildInv σ c)
    (hparent : σ.parent = .waiting c) (hdead : 0 < (σ.status c).dead) :
    ChildInv ((σ.down c).goto (.reading c)) c := by
  have hrefs := h.refs
  have hone := h.one
  have hfrees := h.frees
  have hwaited := h.waited
  have hout := h.not_mem (by rw [hparent]; rfl)
  simp only [Family.parentRefs, hparent, ParentPoint.holds, ParentPoint.frees] at hrefs hone hfrees
  simp only [Family.stage, hout, if_false, hparent, ParentPoint.stage, if_true,
    Family.Waited] at hwaited
  have hexited : (σ.child c).exited = true := by
    cases he : (σ.child c).exited
    · simp [hwaited.2, he] at hdead
    · rfl
  constructor
  case refs => simpa [Family.parentRefs, ParentPoint.holds] using hrefs
  case one => simpa [Family.parentRefs, ParentPoint.holds] using hone
  case frees => simpa [ParentPoint.frees] using hfrees
  case code => simpa using h.code
  case waited => simp [Family.stage, hout, ParentPoint.stage, Family.Waited, hexited, hwaited.1]

/-- The parent reads the exit code. -/
theorem ChildInv.read {σ : Family} {c : ChildId} (h : ChildInv σ c)
    (hparent : σ.parent = .reading c) :
    ChildInv (σ.goto (.releasing c (σ.status c).exitCode)) c := by
  have hrefs := h.refs
  have hone := h.one
  have hfrees := h.frees
  have hwaited := h.waited
  have hout := h.not_mem (by rw [hparent]; rfl)
  simp only [Family.parentRefs, hparent, ParentPoint.holds, ParentPoint.frees] at hrefs hone hfrees
  simp only [Family.stage, hout, if_false, hparent, ParentPoint.stage, if_true,
    Family.Waited] at hwaited
  constructor
  case refs => simpa [Family.parentRefs, ParentPoint.holds] using hrefs
  case one => simpa [Family.parentRefs, ParentPoint.holds] using hone
  case frees => simpa [ParentPoint.frees] using hfrees
  case code => exact h.code
  case waited =>
    simp [Family.stage, hout, ParentPoint.stage, Family.Waited, hwaited.1, hwaited.2.1, h.code]

/-- The parent gives its reference up: it frees the status if the child has done
so. -/
theorem ChildInv.release {σ : Family} {c : ChildId} (h : ChildInv σ c) {p : ParentPoint}
    (hparent : σ.parent.holds = some c) (hstage : p.stage c = σ.parent.stage c)
    (hholds : p.holds = none)
    (hfree : p.frees = if (σ.status c).refCnt - 1 = 0 then some c else none) :
    ChildInv ((σ.unref c).goto p) c := by
  have hrefs := h.refs
  have hone := h.one
  have hfrees := h.frees
  have hwaited := h.waited
  have hout := h.not_mem hparent
  have hno : σ.parent.frees = none := by
    cases hp : σ.parent <;> simp_all [ParentPoint.holds, ParentPoint.frees]
  simp only [Family.parentRefs, hparent, List.count_eq_zero.2 hout] at hrefs
  simp only [hno] at hfrees
  have hrefs' : (σ.status c).refCnt = 1 + (σ.child c).holds.toNat := by simpa using hrefs
  constructor
  case refs =>
    simp only [Family.goto, Family.unref, Family.setStatus, Function.update_self, Family.parentRefs,
      hholds, List.count_eq_zero.2 hout, hrefs']
    have hnone : (none == some c).toNat = 0 := rfl
    rw [hnone]
    omega
  case one => simp [Family.parentRefs, hholds, List.count_eq_zero.2 hout]
  case frees =>
    -- the count was positive, so nothing had been freed
    simp only [Family.goto, Family.unref, Family.setStatus, Function.update_self, hfree, hrefs']
    rw [hrefs'] at hfrees
    cases hp : σ.child c <;> simp_all [ChildPoint.holds, ChildPoint.frees]
  case code => simpa using h.code
  case waited =>
    simpa [Family.stage, hout, hstage, Family.Waited, Family.Answered] using
      show σ.Waited c (σ.parent.stage c) by simpa [Family.stage, hout] using hwaited

/-- The parent frees the status if it was the last. -/
theorem ChildInv.freed {σ σ' : Family} {c : ChildId} (h : ChildInv σ c) {n : ℤ}
    (hfree : σ.parent.frees = if n = 0 then some c else none)
    (hholds : σ.parent.holds = none) (hholds' : σ'.parent.holds = none)
    (hfree' : σ'.parent.frees = none) (hstatus : σ'.status = σ.status)
    (hchildren : σ'.children = σ.children) (hchild : σ'.child = σ.child)
    (hlast : σ'.lastCode = σ.lastCode)
    (hfreed : σ'.freed c = σ.freed c + if n = 0 then 1 else 0)
    (hwaited : σ'.Waited c (σ'.stage c)) : ChildInv σ' c := by
  have hrefs := h.refs
  have hone := h.one
  have hfrees := h.frees
  constructor
  case refs => simpa [Family.parentRefs, hstatus, hchildren, hchild, hholds, hholds'] using hrefs
  case one => simpa [Family.parentRefs, hchildren, hholds, hholds'] using hone
  case frees =>
    rw [hstatus, hchild, hfreed, hfree', ← hfrees, hfree]
    split_ifs <;> simp
  case code =>
    rw [hstatus, hlast]
    exact h.code
  case waited => exact hwaited

/-- A child that has not exited has not been waited for. -/
theorem ChildInv.results_nil {σ : Family} {c : ChildId} (h : ChildInv σ c)
    (hexited : (σ.child c).exited = false) :
    σ.results c = [] ∧ (σ.stage c = .pending ∨ σ.stage c = .abandoned) := by
  have hwaited := h.waited
  cases hs : σ.stage c <;> simp [hs, Family.Waited, Family.Answered, hexited] at hwaited
  · exact ⟨hwaited.1, .inl rfl⟩
  · exact ⟨hwaited, .inr rfl⟩

/-- A running child sets its exit code. -/
theorem ChildInv.setCode {σ : Family} {c : ChildId} (h : ChildInv σ c)
    (hchild : σ.child c = .running) (code : ℤ) : ChildInv (σ.setCode c code) c := by
  have hwaited := h.waited
  obtain ⟨hnil, hstage⟩ := h.results_nil (by rw [hchild]; rfl)
  constructor
  case refs => simpa [Family.parentRefs] using h.refs
  case one => simpa [Family.parentRefs] using h.one
  case frees => simpa using h.frees
  case code => simp
  case waited =>
    have hsame : (σ.setCode c code).stage c = σ.stage c := rfl
    rw [hsame]
    rcases hstage with hs | hs <;> rw [hs] at hwaited ⊢
    · simpa [Family.Waited] using hwaited
    · exact .inl hnil

/-- A child goes to `process_exit`. -/
theorem ChildInv.childExit {σ : Family} {c : ChildId} (h : ChildInv σ c)
    (hchild : σ.child c = .running) : ChildInv (σ.childGoto c .exiting) c := by
  have hrefs := h.refs
  have hfrees := h.frees
  have hwaited := h.waited
  obtain ⟨hnil, hstage⟩ := h.results_nil (by rw [hchild]; rfl)
  rw [hchild] at hrefs hfrees
  constructor
  case refs => simpa [Family.parentRefs, ChildPoint.holds] using hrefs
  case one => exact h.one
  case frees => simpa [ChildPoint.frees] using hfrees
  case code => exact h.code
  case waited =>
    have hsame : (σ.childGoto c .exiting).stage c = σ.stage c := rfl
    rw [hsame]
    rcases hstage with hs | hs <;> rw [hs] at hwaited ⊢
    · simpa [Family.Waited, hchild, ChildPoint.exited] using hwaited
    · exact .inl hnil

/-- A child announces its exit. -/
theorem ChildInv.childUp {σ : Family} {c : ChildId} (h : ChildInv σ c)
    (hchild : σ.child c = .exiting) : ChildInv ((σ.up c).childGoto c .releasing) c := by
  have hrefs := h.refs
  have hfrees := h.frees
  have hwaited := h.waited
  obtain ⟨hnil, hstage⟩ := h.results_nil (by rw [hchild]; rfl)
  rw [hchild] at hrefs hfrees
  constructor
  case refs => simpa [Family.parentRefs, ChildPoint.holds] using hrefs
  case one => exact h.one
  case frees => simpa [ChildPoint.frees] using hfrees
  case code => simpa using h.code
  case waited =>
    have hsame : ((σ.up c).childGoto c .releasing).stage c = σ.stage c := rfl
    rw [hsame]
    rcases hstage with hs | hs <;> rw [hs] at hwaited ⊢
    · simp only [Family.Waited, hchild, ChildPoint.exited] at hwaited
      simp [Family.Waited, ChildPoint.exited, hnil, hwaited.2]
    · exact .inl hnil

/-- Nothing about the waits changes once a child has exited. -/
theorem Family.Waited.exited {σ σ' : Family} {c : ChildId} {s : Stage} (h : σ.Waited c s)
    (hexited : (σ.child c).exited = true) (hexited' : (σ'.child c).exited = true)
    (hdead : (σ'.status c).dead = (σ.status c).dead) (hlast : σ'.lastCode c = σ.lastCode c)
    (hresults : σ'.results c = σ.results c) : σ'.Waited c s := by
  cases s <;>
    simpa only [Family.Waited, Family.Answered, hdead, hlast, hresults, hexited, hexited'] using h

/-- A child gives its reference up: it frees the status if the parent has done
so. -/
theorem ChildInv.childRelease {σ : Family} {c : ChildId} (h : ChildInv σ c)
    (hchild : σ.child c = .releasing) :
    ChildInv ((σ.unref c).childGoto c (.released ((σ.status c).refCnt - 1))) c := by
  have hrefs := h.refs
  have hone := h.one
  have hfrees := h.frees
  simp only [hchild, ChildPoint.holds, ChildPoint.frees, Bool.toNat_true, Bool.toNat_false]
    at hrefs hfrees
  have hpos : ((σ.status c).refCnt == 0) = false := by
    rw [beq_eq_false_iff_ne]
    omega
  rw [hpos] at hfrees
  have hzero : σ.freed c = 0 ∧ (σ.parent.frees == some c).toNat = 0 := by
    simp only [Bool.toNat_false] at hfrees
    omega
  constructor
  case refs =>
    simp [Family.parentRefs, ChildPoint.holds] at hrefs ⊢
    omega
  case one => exact h.one
  case frees =>
    simp only [Family.childGoto, Family.unref, Family.setStatus, Function.update_self,
      ChildPoint.frees, hzero.1, hzero.2, Nat.zero_add]
    rfl
  case code => simpa using h.code
  case waited =>
    exact h.waited.exited (by rw [hchild]; rfl) (by simp [ChildPoint.exited]) (by simp) rfl rfl

/-- A child frees the status if it was the last. -/
theorem ChildInv.childFree {σ : Family} {c : ChildId} (h : ChildInv σ c) {newRef : ℤ}
    (hchild : σ.child c = .released newRef) :
    ChildInv ((σ.freeAt c newRef).childGoto c .gone) c := by
  have hrefs := h.refs
  have hfrees := h.frees
  simp only [hchild, ChildPoint.holds, ChildPoint.frees] at hrefs hfrees
  rw [Family.freeAt_eq]
  constructor
  case refs => simpa [Family.parentRefs, ChildPoint.holds] using hrefs
  case one => exact h.one
  case frees =>
    simp only [Family.childGoto, Function.update_self, ChildPoint.frees, Bool.toNat_false]
    rw [← hfrees]
    by_cases hlast : newRef = 0 <;> simp [hlast]
    omega
  case code => exact h.code
  case waited =>
    exact h.waited.exited (by rw [hchild]; rfl) (by simp [ChildPoint.exited]) rfl rfl rfl

/-- The points of a parent about one child. -/
theorem about_ne {p : ParentPoint} {c d : ChildId} (h : p.about = some d) (hcd : c ≠ d) :
    p.about ≠ some c := by
  rw [h]
  exact fun hdc => hcd (Option.some.inj hdc).symm

/-- **Every step keeps it.** -/
theorem FamilyInv.step {σ σ' : Family} (h : FamilyInv σ) (hs : FamilyStep σ σ') : FamilyInv σ' := by
  cases hs with
  | execute d pid hparent hchild hpid =>
    obtain ⟨hout, -, hfreed, hresults⟩ := h.unborn d hchild
    exact h.at (by simp) (σ.born_inv hout hfreed hresults pid) (fun c hc => by simp [hc])
      (fun c hc => by simp [hc]) (fun _ _ => rfl) (fun c hc => by simp [hc]) (fun _ _ => rfl)
      (fun _ _ => rfl) (.inr ⟨by simp [hparent, ParentPoint.leaving], fun c hc =>
        ⟨by simp [hparent, ParentPoint.about], about_ne rfl hc⟩⟩)
      (fun c _ hc => by simpa using (hpid c hc).symm) (fun _ => hout) (by simp)
  | @executed d hparent =>
    have hborn := h.born_of_about (.inl (by rw [hparent]; rfl))
    exact h.parentStep hborn ((h.born d hborn).executed hparent) rfl rfl
      (fun _ => ⟨fun _ => rfl, rfl⟩) (fun _ _ => rfl) (fun _ _ => rfl)
      (fun c hc => by simp [Ne.symm hc]) (by rw [hparent]; rfl)
      (fun c hc => ⟨about_ne (by rw [hparent]; rfl) hc, by simp [ParentPoint.about]⟩)
      (by simp [ParentPoint.about]) (by simp)
  | @wait d pid hparent hfind =>
    have hmem : d ∈ σ.children := List.mem_of_find?_eq_some hfind
    have hborn := h.born_of_about (.inr hmem)
    exact h.parentStep hborn ((h.born d hborn).remove hmem rfl rfl
      (.inl (by simp [ParentPoint.stage])) (by rw [hparent]; rfl)) rfl rfl
      (fun _ => ⟨fun _ => rfl, rfl⟩) (fun _ _ => rfl) (fun _ _ => rfl)
      (fun c hc => List.count_erase_of_ne hc) (by rw [hparent]; rfl)
      (fun c hc => ⟨by simp [hparent, ParentPoint.about], about_ne rfl hc⟩)
      (fun _ => (h.born d hborn).not_mem_erase) (by simp)
  | waitNone pid hparent hfind =>
    refine ⟨fun c hc => ?_, fun c hc => ?_, h.pids, h.apart, h.gone⟩
    · have hold := h.born c hc
      refine ⟨hold.refs, hold.one, hold.frees, hold.code, ?_⟩
      have hwaited := hold.waited
      have hsame : (σ.answer pid (-1)).stage c = σ.stage c := rfl
      rw [hsame]
      by_cases hpid : (σ.status c).pid = pid
      · have hout : c ∉ σ.children := fun hmem => by
          have hno := List.find?_eq_none.1 hfind c hmem
          simp [hpid] at hno
        simp only [Family.stage, hout, if_false, hparent, ParentPoint.stage] at hwaited ⊢
        obtain ⟨hexited, n, hn⟩ := hwaited
        refine ⟨hexited, n + 1, ?_⟩
        have hc : σ.child c ≠ .unborn := hc
        simp [Family.answer, hpid, hc, hn, List.replicate_succ']
      · cases hs : σ.stage c <;>
          simpa [Family.Waited, Family.Answered, Family.answer, hs, hpid] using hwaited
    · obtain ⟨hout, habout, hzero, hnil⟩ := h.unborn c hc
      have hc : σ.child c = .unborn := hc
      exact ⟨hout, habout, hzero, by simp [Family.answer, hc, hnil]⟩
  | @down d hparent hdead =>
    have hborn := h.born_of_about (.inl (by rw [hparent]; rfl))
    exact h.parentStep hborn ((h.born d hborn).down hparent hdead) rfl rfl
      (fun c => by by_cases hc : c = d <;> simp [hc]) (fun _ _ => rfl) (fun _ _ => rfl)
      (fun _ _ => rfl) (by rw [hparent]; rfl)
      (fun c hc => ⟨about_ne (by rw [hparent]; rfl) hc, about_ne rfl hc⟩)
      (fun _ => h.apart d (by rw [hparent]; rfl)) (by simp)
  | @read d hparent =>
    have hborn := h.born_of_about (.inl (by rw [hparent]; rfl))
    exact h.parentStep hborn ((h.born d hborn).read hparent) rfl rfl
      (fun _ => ⟨fun _ => rfl, rfl⟩) (fun _ _ => rfl) (fun _ _ => rfl)
      (fun _ _ => rfl) (by rw [hparent]; rfl)
      (fun c hc => ⟨about_ne (by rw [hparent]; rfl) hc, about_ne rfl hc⟩)
      (fun _ => h.apart d (by rw [hparent]; rfl)) (by simp)
  | @release d code hparent =>
    have hborn := h.born_of_about (.inl (by rw [hparent]; rfl))
    exact h.parentStep hborn ((h.born d hborn).release (by rw [hparent]; rfl)
      (by rw [hparent]; rfl) rfl rfl) rfl rfl
      (fun c => by by_cases hc : c = d <;> simp [hc]) (fun _ _ => rfl) (fun _ _ => rfl)
      (fun _ _ => rfl) (by rw [hparent]; rfl)
      (fun c hc => ⟨about_ne (by rw [hparent]; rfl) hc, about_ne rfl hc⟩)
      (fun _ => h.apart d (by rw [hparent]; rfl)) (by simp)
  | @waited d code newRef hparent =>
    have hborn := h.born_of_about (.inl (by rw [hparent]; rfl))
    have hd := h.born d hborn
    have hout := h.apart d (by rw [hparent]; rfl)
    have hwaited := hd.waited
    simp only [Family.stage, hout, if_false, hparent, ParentPoint.stage, if_true] at hwaited
    obtain ⟨hexited, hnil, hcode⟩ := hwaited
    rw [Family.freeAt_eq]
    refine h.parentStep hborn (hd.freed (n := newRef) (by rw [hparent]; rfl)
      (by rw [hparent]; rfl) rfl rfl rfl rfl rfl rfl (by simp [Family.answer]) ?_) rfl rfl
      (fun _ => ⟨fun _ => rfl, rfl⟩) (fun c hc => by simp [Family.answer, hc]) (fun c hc => ?_)
      (fun _ _ => rfl) (by rw [hparent]; rfl)
      (fun c hc => ⟨about_ne (by rw [hparent]; rfl) hc, by simp [ParentPoint.about]⟩)
      (by simp [ParentPoint.about]) (by simp)
    · simp only [Family.stage, Family.goto, Family.answer, hout, if_false, ParentPoint.stage]
      refine ⟨hexited, 0, ?_⟩
      simp [hborn, hnil, hcode code rfl]
    · have hne : ¬(σ.child c ≠ .unborn ∧ (σ.status c).pid = (σ.status d).pid) := fun ⟨hc', hpid⟩ =>
        hc (h.pids c d hc' hborn hpid)
      simp [Family.answer, hne]
  | exit hparent =>
    refine ⟨fun c hc => ?_, fun c hc => ?_, h.pids, by simp [ParentPoint.about], by simp⟩
    · have hold := h.born c hc
      have hrefs := hold.refs
      have hone := hold.one
      have hfrees := hold.frees
      have hwaited := hold.waited
      simp only [Family.parentRefs, hparent] at hrefs hone hfrees
      refine ⟨hrefs, hone, hfrees, hold.code, ?_⟩
      have hstage : (σ.goto .exiting).stage c = .pending ∧ σ.stage c = .pending ∨
          (σ.goto .exiting).stage c = .abandoned ∧ σ.stage c = .over := by
        by_cases hmem : c ∈ σ.children <;> simp [Family.stage, hmem, hparent, ParentPoint.stage]
      rcases hstage with ⟨hs', hs⟩ | ⟨hs', hs⟩ <;> rw [hs] at hwaited <;> rw [hs']
      · exact hwaited
      · exact .inr hwaited
    · obtain ⟨hout, -, hzero, hnil⟩ := h.unborn c hc
      exact ⟨hout, by simp [ParentPoint.about], hzero, hnil⟩
  | @drop d rest hparent hchildren =>
    have hmem : d ∈ σ.children := by rw [hchildren]; exact List.mem_cons_self
    have hborn := h.born_of_about (.inr hmem)
    exact h.parentStep hborn ((h.born d hborn).remove hmem rfl rfl (.inr rfl)
      (by rw [hparent]; rfl)) rfl rfl
      (fun _ => ⟨fun _ => rfl, rfl⟩) (fun _ _ => rfl) (fun _ _ => rfl)
      (fun c hc => List.count_erase_of_ne hc) (by rw [hparent]; rfl)
      (fun c hc => ⟨by simp [hparent, ParentPoint.about], about_ne rfl hc⟩)
      (fun _ => (h.born d hborn).not_mem_erase) (by simp)
  | @dropRelease d hparent =>
    have hborn := h.born_of_about (.inl (by rw [hparent]; rfl))
    exact h.parentStep hborn ((h.born d hborn).release (by rw [hparent]; rfl)
      (by rw [hparent]; rfl) rfl rfl) rfl rfl
      (fun c => by by_cases hc : c = d <;> simp [hc]) (fun _ _ => rfl) (fun _ _ => rfl)
      (fun _ _ => rfl) (by rw [hparent]; rfl)
      (fun c hc => ⟨about_ne (by rw [hparent]; rfl) hc, about_ne rfl hc⟩)
      (fun _ => h.apart d (by rw [hparent]; rfl)) (by simp)
  | @dropFree d newRef hparent =>
    have hborn := h.born_of_about (.inl (by rw [hparent]; rfl))
    have hd := h.born d hborn
    have hout := h.apart d (by rw [hparent]; rfl)
    have hwaited := hd.waited
    simp only [Family.stage, hout, if_false, hparent, ParentPoint.stage] at hwaited
    rw [Family.freeAt_eq]
    refine h.parentStep hborn (hd.freed (n := newRef) (by rw [hparent]; rfl)
      (by rw [hparent]; rfl) rfl rfl rfl rfl rfl rfl (by simp) ?_) rfl rfl
      (fun _ => ⟨fun _ => rfl, rfl⟩) (fun c hc => by simp [hc]) (fun _ _ => rfl)
      (fun _ _ => rfl) (by rw [hparent]; rfl)
      (fun c hc => ⟨about_ne (by rw [hparent]; rfl) hc, by simp [ParentPoint.about]⟩)
      (by simp [ParentPoint.about]) (by simp)
    simp only [Family.stage, Family.goto, hout, if_false, ParentPoint.stage]
    exact hwaited
  | exited hparent hnil =>
    refine ⟨fun c hc => ?_, fun c hc => ?_, h.pids, by simp [ParentPoint.about], fun _ => hnil⟩
    · refine (h.born c hc).congr rfl ?_ ?_ rfl rfl rfl rfl ?_
      · simp [Family.parentRefs, hparent, ParentPoint.holds]
      · simp [hparent, ParentPoint.frees]
      · simp [Family.stage, hnil, hparent, ParentPoint.stage]
    · obtain ⟨hout, -, hzero, hresults⟩ := h.unborn c hc
      exact ⟨hout, by simp [ParentPoint.about], hzero, hresults⟩
  | setCode d code hchild =>
    have hborn : σ.child d ≠ .unborn := by simp [hchild]
    exact h.childStep hborn hborn ((h.born d hborn).setCode hchild code) (fun _ _ => rfl)
      (fun c => by by_cases hc : c = d <;> simp [hc]) (fun _ _ => rfl)
      (fun c hc => by simp [hc]) rfl rfl rfl
  | childExit d hchild =>
    have hborn : σ.child d ≠ .unborn := by simp [hchild]
    exact h.childStep hborn (by simp) ((h.born d hborn).childExit hchild)
      (fun c hc => by simp [hc]) (fun _ => ⟨fun _ => rfl, rfl⟩) (fun _ _ => rfl)
      (fun _ _ => rfl) rfl rfl rfl
  | childUp d hchild =>
    have hborn : σ.child d ≠ .unborn := by simp [hchild]
    exact h.childStep hborn (by simp) ((h.born d hborn).childUp hchild)
      (fun c hc => by simp [hc]) (fun c => by by_cases hc : c = d <;> simp [hc]) (fun _ _ => rfl)
      (fun _ _ => rfl) rfl rfl rfl
  | childRelease d hchild =>
    have hborn : σ.child d ≠ .unborn := by simp [hchild]
    exact h.childStep hborn (by simp) ((h.born d hborn).childRelease hchild)
      (fun c hc => by simp [hc]) (fun c => by by_cases hc : c = d <;> simp [hc]) (fun _ _ => rfl)
      (fun _ _ => rfl) rfl rfl rfl
  | @childFree d newRef hchild =>
    have hborn : σ.child d ≠ .unborn := by simp [hchild]
    have hd := (h.born d hborn).childFree hchild
    rw [Family.freeAt_eq] at hd ⊢
    exact h.childStep hborn (by simp) hd (fun c hc => by simp [hc])
      (fun _ => ⟨fun _ => rfl, rfl⟩) (fun c hc => by simp [hc]) (fun _ _ => rfl) rfl rfl rfl

theorem FamilyReach.inv {σ : Family} (h : FamilyReach σ) : FamilyInv σ := by
  induction h with
  | init => exact familyInv_init
  | step _ hs ih => exact ih.step hs

/-! ### The lifecycle -/

/-- A status has been freed, once, when neither party may still use it. -/
theorem ChildInv.freed_iff {σ : Family} {c : ChildId} (h : ChildInv σ c) :
    σ.freed c ≤ 1 ∧ (σ.freed c = 1 ↔ ¬σ.ParentUses c ∧ ¬σ.ChildUses c) := by
  have hrefs := h.refs
  have hfrees := h.frees
  simp only [Family.parentRefs] at hrefs
  have hparent : σ.ParentUses c ↔ 0 < σ.children.count c ∨ (σ.parent.holds == some c).toNat = 1 ∨
      (σ.parent.frees == some c).toNat = 1 := by
    simp [Family.ParentUses, List.count_pos_iff]
  have hchild : σ.ChildUses c ↔ (σ.child c).holds.toNat = 1 ∨ (σ.child c).frees.toNat = 1 := by
    simp [Family.ChildUses]
  have hzero : ((σ.status c).refCnt == 0).toNat = 1 ↔ (σ.status c).refCnt = 0 := by simp
  have hle := Bool.toNat_le ((σ.status c).refCnt == 0)
  have hparentHolds := Bool.toNat_le (σ.parent.holds == some c)
  have hchildHolds := Bool.toNat_le (σ.child c).holds
  rw [hparent, hchild]
  omega

/-- A parent that waits for a child that has exited returns the code the child
last set. -/
theorem FamilyInv.wait_returns {σ : Family} (h : FamilyInv σ) {c : ChildId}
    (hparent : σ.parent = .waiting c) (hexited : (σ.child c).exited = true) :
    ∃ σ', Relation.ReflTransGen FamilyStep σ σ' ∧ σ'.parent = .idle ∧
      σ'.results c = [σ.lastCode c] := by
  have hborn := h.born_of_about (.inl (by rw [hparent]; rfl))
  have hc := h.born c hborn
  have hout := h.apart c (by rw [hparent]; rfl)
  have hwaited := hc.waited
  simp only [Family.stage, hout, if_false, hparent, ParentPoint.stage, if_true,
    Family.Waited, hexited] at hwaited
  have hdown := FamilyStep.down hparent (by rw [hwaited.2]; decide)
  refine ⟨_, .head hdown (.head (.read rfl) (.head (.release rfl) (.single (.waited rfl)))), rfl, ?_⟩
  rw [Family.freeAt_eq]
  simp [Family.answer, hborn, hwaited.1, hc.code]

/-- **The lifecycle of a wait status.**  In every state reached, the status of a
child is freed once, exactly when neither party may still use it; the first
`process_wait` on the child returned, after the child's exit, the code it last
set, and the others -1; a parent that waits for a child that has exited returns;
and once both are gone the status is freed, whether the parent waited or not. -/
theorem waitStatus_lifecycle {σ : Family} (h : FamilyReach σ) {c : ChildId}
    (hborn : σ.child c ≠ .unborn) :
    (σ.freed c ≤ 1 ∧ (σ.freed c = 1 ↔ ¬σ.ParentUses c ∧ ¬σ.ChildUses c)) ∧
    (σ.results c = [] ∨ σ.Answered c) ∧
    (σ.parent = .waiting c → (σ.child c).exited = true →
      ∃ σ', Relation.ReflTransGen FamilyStep σ σ' ∧ σ'.parent = .idle ∧
        σ'.results c = [σ.lastCode c]) ∧
    (σ.parent = .gone → σ.child c = .gone → σ.freed c = 1) := by
  have hinv := h.inv
  have hc := hinv.born c hborn
  refine ⟨hc.freed_iff, ?_, hinv.wait_returns, fun hparent hchild => ?_⟩
  · have hwaited := hc.waited
    cases hs : σ.stage c <;> rw [hs] at hwaited
    · exact .inl hwaited.1
    · exact .inl hwaited.2.1
    · exact .inr hwaited
    · exact hwaited
  · refine hc.freed_iff.2.2 ⟨?_, ?_⟩
    · simp [Family.ParentUses, hinv.gone hparent, hparent, ParentPoint.holds, ParentPoint.frees]
    · simp [Family.ChildUses, hchild, ChildPoint.holds, ChildPoint.frees]

/-- A child exits with 42 while its parent waits, and frees the status. -/
theorem waitStatus_lifecycle_waited : ∃ σ, σ.results 0 = [42] ∧ σ.child 0 = .gone ∧
    (σ.freed 0 ≤ 1 ∧ (σ.freed 0 = 1 ↔ ¬σ.ParentUses 0 ∧ ¬σ.ChildUses 0)) ∧
    (σ.results 0 = [] ∨ σ.Answered 0) ∧
    (σ.parent = .waiting 0 → (σ.child 0).exited = true →
      ∃ σ', Relation.ReflTransGen FamilyStep σ σ' ∧ σ'.parent = .idle ∧
        σ'.results 0 = [σ.lastCode 0]) ∧
    (σ.parent = .gone → σ.child 0 = .gone → σ.freed 0 = 1) := by
  have hexecuted := (FamilyReach.init.step (.execute 0 7 rfl rfl fun d hd => absurd rfl hd)).step
    (.executed rfl)
  have hwaits := hexecuted.step (.wait 7 rfl rfl)
  have hexits := (hwaits.step (.setCode 0 42 rfl)).step (.childExit 0 rfl)
  have hwoken := (hexits.step (.childUp 0 rfl)).step (.down rfl (by decide))
  have hanswers := ((hwoken.step (.read rfl)).step (.release rfl)).step (.waited rfl)
  have hgone := (hanswers.step (.childRelease 0 rfl)).step (.childFree 0 rfl)
  exact ⟨_, rfl, rfl, waitStatus_lifecycle hgone (by decide)⟩

end Userprog
end CS162

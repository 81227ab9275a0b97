/-
# Pipelines in the foreground

`hw-shell/shell.c`, lines 225-326: `run_command_with_pipes`, for `n` commands and
`n - 1` pipes, where no `fork` fails and no command is stopped by a signal.

The parent forks a command, closes its own ends of the pipes that only the command
needs, and waits for the command before it forks the next one.  A command has the ends
that the parent had when it was forked, until it has closed all but its standard input
and output.  It writes so many bytes, reads to the end of its input and exits; a pipe
holds up to `C` bytes.

No state is stuck if and only if no command but the last writes more than a pipe holds
(`progress_iff`).
-/

import CS162.Basis.Runs
import CS162.Basis.Tally

namespace CS162
namespace Shell

open CS162.Basis

/-- An end of a pipe, a descriptor in `pipe_arr`. -/
inductive End
  | read (j : ℕ)
  | write (j : ℕ)
deriving DecidableEq

def End.pipe : End → ℕ
  | read j => j
  | write j => j

/-- Where a command is. -/
inductive Status
  | unborn
  /-- Forked, with all that the parent has open. -/
  | forked
  | running
  | exited
deriving DecidableEq

/-- A command and its process. -/
structure Child where
  status : Status
  ends : End → Bool
  /-- What it has yet to write. -/
  toWrite : ℕ
  /-- Whether it has come to the end of its input. -/
  atEnd : Bool

/-- What the parent does next in a turn of its loop. -/
inductive Stage
  | fork
  | closeRead
  | closeWrite
  | wait
deriving DecidableEq

/-- The parent, which is in turn `i`, the commands, and the bytes in the pipes. -/
structure Pipeline where
  i : ℕ
  stage : Stage
  ends : End → Bool
  child : ℕ → Child
  pipe : ℕ → ℕ

/-- The ends that a running command has: its standard input and output. -/
def stdio (n k : ℕ) (e : End) : Bool :=
  decide (0 < k ∧ e = .read (k - 1)) || decide (k + 1 < n ∧ e = .write k)

def Child.fork (c : Child) (ends : End → Bool) : Child := { c with status := .forked, ends := ends }

/-- `dup2`, and `close` of all ends. -/
def Child.exec (c : Child) (n k : ℕ) : Child := { c with status := .running, ends := stdio n k }

def Child.wrote (c : Child) : Child := { c with toWrite := c.toWrite - 1 }

def Child.exit (c : Child) : Child := { c with status := .exited, ends := fun _ => false }

/-- Some process has the end open. -/
def Pipeline.Open (s : Pipeline) (e : End) : Prop := s.ends e = true ∨ ∃ k, (s.child k).ends e = true

/-- A command changes, and the bytes in a pipe. -/
def Pipeline.setChild (s : Pipeline) (k : ℕ) (c : Child) : Pipeline :=
  { s with child := Function.update s.child k c }

def Pipeline.setPipe (s : Pipeline) (j bytes : ℕ) : Pipeline :=
  { s with pipe := Function.update s.pipe j bytes }

def Pipeline.setStage (s : Pipeline) (stage : Stage) : Pipeline := { s with stage := stage }

def Pipeline.close (s : Pipeline) (e : End) : Pipeline :=
  { s with ends := Function.update s.ends e false }

/-- `run_command_with_pipes` before its first `fork`; the command `k` writes `out k` bytes. -/
def Pipeline.start (n : ℕ) (out : ℕ → ℕ) : Pipeline where
  i := 0
  stage := .fork
  ends e := decide (e.pipe + 1 < n)
  child k := ⟨.unborn, fun _ => false, out k, false⟩
  pipe _ := 0

/-- The parent has come to the end of its loop. -/
def Pipeline.Returned (n : ℕ) (s : Pipeline) : Prop := n ≤ s.i

/-- A step of the parent or of a command. -/
inductive Pipeline.Step (n C : ℕ) : Pipeline → Pipeline → Prop
  | fork {s : Pipeline} : s.i < n → s.stage = .fork →
      Step n C s ((s.setChild s.i ((s.child s.i).fork s.ends)).setStage .closeRead)
  | closeRead {s : Pipeline} : s.i < n → s.stage = .closeRead →
      Step n C s ((if 0 < s.i then s.close (.read (s.i - 1)) else s).setStage .closeWrite)
  | closeWrite {s : Pipeline} : s.i < n → s.stage = .closeWrite →
      Step n C s ((if s.i + 1 < n then s.close (.write s.i) else s).setStage .wait)
  /-- `waitpid`. -/
  | wait {s : Pipeline} : s.i < n → s.stage = .wait → (s.child s.i).status = .exited →
      Step n C s { s with i := s.i + 1, stage := .fork }
  | exec {s : Pipeline} {k : ℕ} : (s.child k).status = .forked →
      Step n C s (s.setChild k ((s.child k).exec n k))
  | write {s : Pipeline} {k : ℕ} : (s.child k).status = .running → 0 < (s.child k).toWrite →
      k + 1 < n → s.Open (.read k) → s.pipe k < C →
      Step n C s ((s.setChild k (s.child k).wrote).setPipe k (s.pipe k + 1))
  /-- A write to a pipe that nobody reads ends the command. -/
  | broken {s : Pipeline} {k : ℕ} : (s.child k).status = .running → 0 < (s.child k).toWrite →
      k + 1 < n → ¬s.Open (.read k) → Step n C s (s.setChild k (s.child k).exit)
  /-- The last command does not write to a pipe. -/
  | print {s : Pipeline} {k : ℕ} : (s.child k).status = .running → 0 < (s.child k).toWrite →
      n ≤ k + 1 → Step n C s (s.setChild k (s.child k).wrote)
  | read {s : Pipeline} {k : ℕ} : (s.child k).status = .running → (s.child k).atEnd = false →
      0 < k → 0 < s.pipe (k - 1) → Step n C s (s.setPipe (k - 1) (s.pipe (k - 1) - 1))
  /-- The end of the input, which is a pipe but for the first command. -/
  | eof {s : Pipeline} {k : ℕ} : (s.child k).status = .running → (s.child k).atEnd = false →
      (0 < k → s.pipe (k - 1) = 0 ∧ ¬s.Open (.write (k - 1))) →
      Step n C s (s.setChild k { s.child k with atEnd := true })
  | exit {s : Pipeline} {k : ℕ} : (s.child k).status = .running → (s.child k).toWrite = 0 →
      (s.child k).atEnd = true → Step n C s (s.setChild k (s.child k).exit)

/-- The states that the pipeline comes to. -/
def Pipeline.Reached (n C : ℕ) (out : ℕ → ℕ) : Pipeline → Prop :=
  Relation.ReflTransGen (Pipeline.Step n C) (.start n out)

/-- **No deadlock**: until the parent returns, some process can take a step. -/
def Progress (n C : ℕ) (out : ℕ → ℕ) : Prop :=
  ∀ s, Pipeline.Reached n C out s → ¬s.Returned n → ∃ s', Pipeline.Step n C s s'

/-! ### What holds of every state -/

/-- The invariant: only the command of the parent's turn runs, and nobody but it has an end for
writing to its input. -/
structure Pipeline.Inv (n C : ℕ) (out : ℕ → ℕ) (s : Pipeline) : Prop where
  earlier : ∀ k < s.i, (s.child k).status = .exited
  turn : s.stage ≠ .fork → s.i < n
  later : ∀ k, s.i < k → s.child k = ⟨.unborn, fun _ => false, out k, false⟩
  current : if s.stage = .fork then s.child s.i = ⟨.unborn, fun _ => false, out s.i, false⟩
    else (s.child s.i).status ≠ .unborn
  exited : ∀ k, (s.child k).status = .exited → (s.child k).ends = fun _ => false
  done : (s.child s.i).status = .exited → (s.child s.i).toWrite = 0
  parentRead : ∀ j, s.i ≤ j → j + 1 < n → s.ends (.read j) = true
  parentWrite : ∀ j, s.ends (.write j) = true → s.i ≤ j ∧ j + 1 < n ∧ (s.stage = .wait → s.i < j)
  childWrite : ∀ j, (s.child s.i).ends (.write j) = true → s.i ≤ j
  full : ∀ j, s.pipe j ≤ C
  empty : ∀ j, s.i < j → s.pipe j = 0
  flow : s.i + 1 < n → s.pipe s.i + (s.child s.i).toWrite = out s.i
  bound : ∀ k < s.i, k + 1 < n → out k ≤ C

def Stage.index : Stage → ℕ
  | .fork => 0
  | .closeRead => 1
  | .closeWrite => 2
  | .wait => 3

/-- The number of steps that a command has left, at most, with those of its readers. -/
def Child.weight (c : Child) : ℕ :=
  match c.status with
  | .unborn => 4 + 2 * c.toWrite
  | .forked => 3 + 2 * c.toWrite
  | .running => (if c.atEnd then 1 else 2) + 2 * c.toWrite
  | .exited => 0

namespace Child

variable {c : Child}

theorem weight_exec (h : c.status = .forked) (n k : ℕ) : (c.exec n k).weight < c.weight := by
  obtain ⟨status, ends, toWrite, atEnd⟩ := c
  cases h
  show (if atEnd then 1 else 2) + 2 * toWrite < 3 + 2 * toWrite
  split <;> omega

theorem weight_wrote (h : c.status = .running) (hw : 0 < c.toWrite) :
    c.wrote.weight + 2 = c.weight := by
  obtain ⟨status, ends, toWrite, atEnd⟩ := c
  cases h
  replace hw : 0 < toWrite := hw
  show (if atEnd then 1 else 2) + 2 * (toWrite - 1) + 2 = (if atEnd then 1 else 2) + 2 * toWrite
  omega

theorem weight_atEnd (h : c.status = .running) (hend : c.atEnd = false) :
    ({ c with atEnd := true } : Child).weight < c.weight := by
  obtain ⟨status, ends, toWrite, atEnd⟩ := c
  cases h
  cases hend
  show 1 + 2 * toWrite < 2 + 2 * toWrite
  omega

theorem weight_exit (h : c.status = .running) : c.exit.weight < c.weight := by
  obtain ⟨status, ends, toWrite, atEnd⟩ := c
  cases h
  show 0 < (if atEnd then 1 else 2) + 2 * toWrite
  split <;> omega

end Child

namespace Pipeline

variable {n C : ℕ} {out : ℕ → ℕ} {s t : Pipeline} {k : ℕ}

theorem start_inv : (start n out).Inv n C out where
  earlier k hk := absurd hk (Nat.not_lt_zero k)
  turn h := absurd rfl h
  later k _ := rfl
  current := rfl
  exited k h := by cases h
  done h := by cases h
  parentRead j _ hj := decide_eq_true hj
  parentWrite j hj := ⟨Nat.zero_le j, of_decide_eq_true hj, fun h => by cases h⟩
  childWrite j h := by cases h
  full j := Nat.zero_le C
  empty j _ := rfl
  flow _ := Nat.zero_add _
  bound k hk := absurd hk (Nat.not_lt_zero k)

namespace Inv

variable (h : s.Inv n C out)
include h

/-- A command that has been forked and has not exited is the one of the parent's turn. -/
theorem eq_current (hk : (s.child k).status = .forked ∨ (s.child k).status = .running) :
    k = s.i ∧ s.stage ≠ .fork := by
  rcases Nat.lt_trichotomy k s.i with hlt | rfl | hlt
  · rw [h.earlier k hlt] at hk
    simp at hk
  · refine ⟨rfl, fun hstage => ?_⟩
    have hcurrent := h.current
    rw [if_pos hstage] at hcurrent
    rw [hcurrent] at hk
    simp at hk
  · rw [h.later k hlt] at hk
    simp at hk

/-- Only the command of the parent's turn changes, what is in the pipes up to it, and what
the parent does next. -/
theorem moved (hi : t.i = s.i) (hends : t.ends = s.ends) (hchild : ∀ k ≠ s.i, t.child k = s.child k)
    (hturn : s.i < n) (hstage : t.stage ≠ .fork) (hwait : t.stage = .wait → s.stage = .wait)
    (hborn : (t.child s.i).status ≠ .unborn)
    (hexited : (t.child s.i).status = .exited →
      (t.child s.i).ends = (fun _ => false) ∧ (t.child s.i).toWrite = 0)
    (hwrite : ∀ j, (t.child s.i).ends (.write j) = true → s.i ≤ j) (hfull : ∀ j, t.pipe j ≤ C)
    (hempty : ∀ j, s.i < j → t.pipe j = s.pipe j)
    (hflow : s.i + 1 < n → t.pipe s.i + (t.child s.i).toWrite = out s.i) : t.Inv n C out where
  earlier k hk := by
    rw [hi] at hk
    rw [hchild k (Nat.ne_of_lt hk)]
    exact h.earlier k hk
  turn _ := by rw [hi]; exact hturn
  later k hk := by
    rw [hi] at hk
    rw [hchild k (Nat.ne_of_gt hk)]
    exact h.later k hk
  current := by
    rw [if_neg hstage, hi]
    exact hborn
  exited k hk := by
    by_cases hki : k = s.i
    · rw [hki] at hk ⊢
      exact (hexited hk).1
    · rw [hchild k hki] at hk ⊢
      exact h.exited k hk
  done hk := by
    rw [hi] at hk ⊢
    exact (hexited hk).2
  parentRead j hj hn := by
    rw [hi] at hj
    rw [hends]
    exact h.parentRead j hj hn
  parentWrite j hj := by
    rw [hends] at hj
    rw [hi]
    obtain ⟨hle, hn, hlt⟩ := h.parentWrite j hj
    exact ⟨hle, hn, fun hw => hlt (hwait hw)⟩
  childWrite j hj := by
    rw [hi] at hj ⊢
    exact hwrite j hj
  full := hfull
  empty j hj := by
    rw [hi] at hj
    rw [hempty j hj]
    exact h.empty j hj
  flow hn := by
    rw [hi] at hn ⊢
    exact hflow hn
  bound k hk hn := by
    rw [hi] at hk
    exact h.bound k hk hn

/-- The parent goes on in its turn, and may have closed an end. -/
theorem parent (hi : t.i = s.i) (hchild : t.child = s.child) (hpipe : t.pipe = s.pipe)
    (hfork : s.stage ≠ .fork) (hstage : t.stage ≠ .fork)
    (hread : ∀ j, s.i ≤ j → t.ends (.read j) = s.ends (.read j))
    (hwrite : ∀ j, t.ends (.write j) = true →
      s.ends (.write j) = true ∧ (t.stage = .wait → j ≠ s.i)) :
    t.Inv n C out where
  earlier := by rw [hi, hchild]; exact h.earlier
  turn _ := by rw [hi]; exact h.turn hfork
  later := by rw [hi, hchild]; exact h.later
  current := by
    have hcurrent := h.current
    rw [if_neg hfork] at hcurrent
    rw [if_neg hstage, hi, hchild]
    exact hcurrent
  exited := by rw [hchild]; exact h.exited
  done := by rw [hi, hchild]; exact h.done
  parentRead j hj hn := by
    rw [hi] at hj
    rw [hread j hj]
    exact h.parentRead j hj hn
  parentWrite j hj := by
    obtain ⟨hold, hne⟩ := hwrite j hj
    obtain ⟨hle, hn, -⟩ := h.parentWrite j hold
    rw [hi]
    exact ⟨hle, hn, fun hw => Nat.lt_of_le_of_ne hle (hne hw).symm⟩
  childWrite := by rw [hi, hchild]; exact h.childWrite
  full := by rw [hpipe]; exact h.full
  empty := by rw [hi, hpipe]; exact h.empty
  flow := by rw [hi, hpipe, hchild]; exact h.flow
  bound := by rw [hi]; exact h.bound

/-- `waitpid` returns. -/
theorem next (hstage : s.stage = .wait) (hexited : (s.child s.i).status = .exited) :
    Inv n C out { s with i := s.i + 1, stage := .fork } where
  earlier k hk := by
    rcases Nat.lt_succ_iff_lt_or_eq.1 hk with hlt | rfl
    · exact h.earlier k hlt
    · exact hexited
  turn hstage := absurd rfl hstage
  later k hk := h.later k (Nat.lt_of_succ_lt hk)
  current := h.later (s.i + 1) (Nat.lt_succ_self _)
  exited := h.exited
  done hk := by
    have hunborn : (s.child (s.i + 1)).status = .unborn := by rw [h.later _ (Nat.lt_succ_self _)]
    cases hunborn.symm.trans hk
  parentRead j hj hn := h.parentRead j (Nat.le_of_succ_le hj) hn
  parentWrite j hj := ⟨(h.parentWrite j hj).2.2 hstage, (h.parentWrite j hj).2.1, nofun⟩
  childWrite j hj := by
    have hends : (s.child (s.i + 1)).ends = fun _ => false := by rw [h.later _ (Nat.lt_succ_self _)]
    cases (congrFun hends _).symm.trans hj
  full := h.full
  empty j hj := h.empty j (Nat.lt_of_succ_lt hj)
  flow _ := by
    show s.pipe (s.i + 1) + (s.child (s.i + 1)).toWrite = _
    rw [h.empty _ (Nat.lt_succ_self _), h.later _ (Nat.lt_succ_self _), Nat.zero_add]
  bound k hk hn := by
    rcases Nat.lt_succ_iff_lt_or_eq.1 hk with hlt | rfl
    · exact h.bound k hlt hn
    · rw [← h.flow hn, h.done hexited, Nat.add_zero]
      exact h.full s.i

/-- The parent can read what the command of its turn writes. -/
theorem open_read (hn : s.i + 1 < n) : s.Open (.read s.i) :=
  .inl (h.parentRead s.i (Nat.le_refl _) hn)

/-- **Nobody has an end for writing to the input of the command that the parent waits for.** -/
theorem not_open_write (hi : 0 < s.i) : ¬s.Open (.write (s.i - 1)) := by
  rintro (hparent | ⟨k, hk⟩)
  · have hle := (h.parentWrite _ hparent).1
    omega
  · rcases Nat.lt_trichotomy k s.i with hlt | rfl | hlt
    · rw [h.exited k (h.earlier k hlt)] at hk
      cases hk
    · have hle := h.childWrite _ hk
      omega
    · rw [h.later k hlt] at hk
      cases hk

end Inv

/-! ### Steps -/

/-- The number of steps that are left, at most. -/
def size (n : ℕ) (s : Pipeline) : ℕ :=
  4 * (n - s.i) - s.stage.index + ∑ k ∈ Finset.range n, (s.child k).weight +
    ∑ j ∈ Finset.range n, s.pipe j

theorem size_setChild (hk : k < n) (c : Child) :
    (s.setChild k c).size n + (s.child k).weight = s.size n + c.weight := by
  have hsum := sum_update (Finset.mem_range.2 hk) s.child Child.weight c
  unfold size setChild
  dsimp only
  omega

theorem size_setPipe {j : ℕ} (hj : j < n) (bytes : ℕ) :
    (s.setPipe j bytes).size n + s.pipe j = s.size n + bytes := by
  have hsum := sum_update (Finset.mem_range.2 hj) s.pipe id bytes
  unfold size setPipe
  dsimp only [id] at hsum ⊢
  omega

theorem size_setStage (s : Pipeline) (st : Stage) :
    (s.setStage st).size n + (4 * (n - s.i) - s.stage.index) =
      s.size n + (4 * (n - s.i) - st.index) := by
  unfold size setStage
  dsimp only
  omega

/-- The command of the parent's turn takes a step. -/
theorem Inv.setChild (h : s.Inv n C out) (hfork : s.stage ≠ .fork) {c : Child}
    (hborn : c.status ≠ .unborn)
    (hexited : c.status = .exited → c.ends = (fun _ => false) ∧ c.toWrite = 0)
    (hwrite : ∀ j, c.ends (.write j) = true → s.i ≤ j)
    (hflow : s.i + 1 < n → s.pipe s.i + c.toWrite = out s.i)
    (hsize : c.weight < (s.child s.i).weight) :
    (s.setChild s.i c).Inv n C out ∧ (s.setChild s.i c).size n < s.size n := by
  have hself : (s.setChild s.i c).child s.i = c := Function.update_self ..
  constructor
  · refine h.moved rfl rfl (fun k hk => Function.update_of_ne hk ..) (h.turn hfork) hfork id ?_ ?_ ?_
      h.full (fun _ _ => rfl) ?_
    all_goals rw [hself]
    · exact hborn
    · exact hexited
    · exact hwrite
    · exact hflow
  · have hsum := size_setChild (s := s) (h.turn hfork) c
    omega

theorem ends_close {e e' : End} (he : e' ≠ e) (st : Stage) :
    ((s.close e).setStage st).ends e' = s.ends e' :=
  Function.update_of_ne he ..

/-- **A step keeps the invariant, and is one step less.** -/
theorem Step.spec (hstep : Step n C s t) (h : s.Inv n C out) :
    t.Inv n C out ∧ t.size n < s.size n := by
  cases hstep with
  | fork hi hstage =>
    have hcurrent := h.current
    rw [if_pos hstage] at hcurrent
    set c := (s.child s.i).fork s.ends
    have hself : (s.setChild s.i c).child s.i = c := Function.update_self ..
    constructor
    · refine h.moved rfl rfl (fun k hk => Function.update_of_ne hk ..) hi nofun nofun ?_ ?_ ?_
        h.full (fun _ _ => rfl) ?_
      all_goals rw [show ((s.setChild s.i c).setStage .closeRead).child s.i = c from hself]
      · exact nofun
      · exact nofun
      · exact fun j hj => (h.parentWrite j hj).1
      · exact h.flow
    · have hsum := size_setChild (s := s) hi c
      have hstep := size_setStage (n := n) (s.setChild s.i c) .closeRead
      have hold : (s.child s.i).weight = 4 + 2 * (s.child s.i).toWrite := by rw [hcurrent]; rfl
      have hnew : c.weight = 3 + 2 * (s.child s.i).toWrite := rfl
      rw [show (s.setChild s.i c).stage = .fork from hstage, show (s.setChild s.i c).i = s.i from rfl,
        show Stage.fork.index = 0 from rfl, show Stage.closeRead.index = 1 from rfl] at hstep
      omega
  | closeRead hi hstage =>
    have hfork : s.stage ≠ .fork := by rw [hstage]; exact nofun
    have hstep := size_setStage (n := n) (if 0 < s.i then s.close (.read (s.i - 1)) else s) .closeWrite
    have hindex : s.stage.index = 1 := by rw [hstage]; rfl
    have htwo : Stage.closeWrite.index = 2 := rfl
    by_cases hpos : 0 < s.i
    · rw [if_pos hpos] at hstep ⊢
      have hi' : (s.close (.read (s.i - 1))).i = s.i := rfl
      have hsize : (s.close (.read (s.i - 1))).size n = s.size n := rfl
      have hst : (s.close (.read (s.i - 1))).stage = s.stage := rfl
      rw [hi', hst, hsize] at hstep
      refine ⟨h.parent rfl rfl rfl hfork nofun (fun j hj => ends_close ?_ _)
        fun j hj => ⟨?_, nofun⟩, by omega⟩
      · rw [Ne, End.read.injEq]
        omega
      · exact (ends_close (by simp) _).symm.trans hj
    · rw [if_neg hpos] at hstep ⊢
      exact ⟨h.parent rfl rfl rfl hfork nofun (fun _ _ => rfl) fun j hj => ⟨hj, nofun⟩, by omega⟩
  | closeWrite hi hstage =>
    have hfork : s.stage ≠ .fork := by rw [hstage]; exact nofun
    have hstep := size_setStage (n := n) (if s.i + 1 < n then s.close (.write s.i) else s) .wait
    have hindex : s.stage.index = 2 := by rw [hstage]; rfl
    have hthree : Stage.wait.index = 3 := rfl
    by_cases hlast : s.i + 1 < n
    · rw [if_pos hlast] at hstep ⊢
      have hi' : (s.close (.write s.i)).i = s.i := rfl
      have hsize : (s.close (.write s.i)).size n = s.size n := rfl
      have hst : (s.close (.write s.i)).stage = s.stage := rfl
      rw [hi', hst, hsize] at hstep
      refine ⟨h.parent rfl rfl rfl hfork nofun (fun j hj => ends_close (by simp) _)
        fun j hj => ?_, by omega⟩
      have hne : j ≠ s.i := fun he => by
        rw [he, show ((s.close (.write s.i)).setStage .wait).ends (.write s.i) = _ from
          Function.update_self ..] at hj
        cases hj
      exact ⟨(ends_close (fun he => hne (End.write.inj he)) _).symm.trans hj, fun _ => hne⟩
    · rw [if_neg hlast] at hstep ⊢
      refine ⟨h.parent rfl rfl rfl hfork nofun (fun _ _ => rfl) fun j hj => ⟨hj, fun _ he => ?_⟩,
        by omega⟩
      have hrange := (h.parentWrite j hj).2.1
      omega
  | wait hi hstage hexited =>
    refine ⟨h.next hstage hexited, ?_⟩
    unfold size
    dsimp only
    rw [hstage, Stage.index, Stage.index]
    omega
  | @exec k hforked =>
    obtain ⟨rfl, hfork⟩ := h.eq_current (.inl hforked)
    refine h.setChild hfork nofun nofun (fun j hj => ?_) h.flow (Child.weight_exec hforked n s.i)
    change stdio n s.i (.write j) = true at hj
    simp only [stdio, Bool.or_eq_true, decide_eq_true_eq, reduceCtorEq, and_false, false_or,
      End.write.injEq] at hj
    exact hj.2.ge
  | @write k hrunning htoWrite hn hopen hroom =>
    obtain ⟨rfl, hfork⟩ := h.eq_current (.inr hrunning)
    have hflow := h.flow hn
    set t := (s.setChild s.i (s.child s.i).wrote).setPipe s.i (s.pipe s.i + 1) with ht
    have hself : t.child s.i = (s.child s.i).wrote := Function.update_self ..
    have hpipe : t.pipe s.i = s.pipe s.i + 1 := Function.update_self ..
    have hother : ∀ j ≠ s.i, t.pipe j = s.pipe j := fun j hj => Function.update_of_ne hj ..
    constructor
    · refine h.moved rfl rfl (fun k hk => Function.update_of_ne hk ..) (h.turn hfork) hfork id ?_ ?_ ?_
        (fun j => ?_) (fun j hj => hother j (Nat.ne_of_gt hj)) fun _ => ?_
      · rw [hself, show (s.child s.i).wrote.status = _ from hrunning]
        exact nofun
      · rw [hself, show (s.child s.i).wrote.status = _ from hrunning]
        exact nofun
      · rw [hself]
        exact h.childWrite
      · by_cases hj : j = s.i
        · rw [hj, hpipe]
          exact hroom
        · rw [hother j hj]
          exact h.full j
      · rw [hself, hpipe]
        show s.pipe s.i + 1 + ((s.child s.i).toWrite - 1) = _
        omega
    · have hchild := size_setChild (s := s) (h.turn hfork) (s.child s.i).wrote
      have hbytes := size_setPipe (s := s.setChild s.i (s.child s.i).wrote) (h.turn hfork)
        (s.pipe s.i + 1)
      have hweight := Child.weight_wrote hrunning htoWrite
      rw [show (s.setChild s.i (s.child s.i).wrote).pipe s.i = s.pipe s.i from rfl] at hbytes
      rw [ht]
      omega
  | @broken k hrunning htoWrite hn hclosed =>
    obtain ⟨rfl, -⟩ := h.eq_current (.inr hrunning)
    exact absurd (h.open_read hn) hclosed
  | @print k hrunning htoWrite hn =>
    obtain ⟨rfl, hfork⟩ := h.eq_current (.inr hrunning)
    have hweight := Child.weight_wrote hrunning htoWrite
    have hstatus : (s.child s.i).wrote.status = .running := hrunning
    refine h.setChild hfork ?_ ?_ h.childWrite (fun hlt => absurd hlt (Nat.not_lt.2 hn)) (by omega)
    · rw [hstatus]
      exact nofun
    · rw [hstatus]
      exact nofun
  | @read k hrunning hatEnd hk hpipe =>
    obtain ⟨rfl, hfork⟩ := h.eq_current (.inr hrunning)
    set t := s.setPipe (s.i - 1) (s.pipe (s.i - 1) - 1) with ht
    have hself : t.pipe (s.i - 1) = s.pipe (s.i - 1) - 1 := Function.update_self ..
    have hother : ∀ j ≠ s.i - 1, t.pipe j = s.pipe j := fun j hj => Function.update_of_ne hj ..
    have hstatus : (t.child s.i).status = .running := hrunning
    constructor
    · refine h.moved rfl rfl (fun _ _ => rfl) (h.turn hfork) hfork id ?_ ?_ h.childWrite (fun j => ?_)
        (fun j hj => hother j (by omega)) fun hn => ?_
      · rw [hstatus]
        exact nofun
      · rw [hstatus]
        exact nofun
      · have hfull := h.full j
        by_cases hj : j = s.i - 1
        · rw [hj] at hfull ⊢
          omega
        · rw [hother j hj]
          exact hfull
      · rw [hother s.i (by omega)]
        exact h.flow hn
    · have hturn := h.turn hfork
      have hbytes := size_setPipe (s := s) (show s.i - 1 < n by omega) (s.pipe (s.i - 1) - 1)
      rw [ht]
      omega
  | @eof k hrunning hatEnd hend =>
    obtain ⟨rfl, hfork⟩ := h.eq_current (.inr hrunning)
    have hstatus : ({ s.child s.i with atEnd := true } : Child).status = .running := hrunning
    refine h.setChild hfork ?_ ?_ h.childWrite h.flow (Child.weight_atEnd hrunning hatEnd)
    · rw [hstatus]
      exact nofun
    · rw [hstatus]
      exact nofun
  | @exit k hrunning htoWrite hatEnd =>
    obtain ⟨rfl, hfork⟩ := h.eq_current (.inr hrunning)
    exact h.setChild hfork nofun (fun _ => ⟨rfl, htoWrite⟩) nofun h.flow (Child.weight_exit hrunning)

theorem Reached.inv (h : Reached n C out s) : s.Inv n C out := by
  induction h with
  | refl => exact start_inv
  | tail _ hstep ih => exact (hstep.spec ih).1

/-! ### Stuck states -/

/-- **Where outputs fit into the pipes, the parent or its command goes on.** -/
theorem Inv.step (h : s.Inv n C out) (hout : ∀ k, k + 1 < n → out k ≤ C) (hi : s.i < n) :
    ∃ t, Step n C s t := by
  match hstage : s.stage with
  | .fork => exact ⟨_, .fork hi hstage⟩
  | .closeRead => exact ⟨_, .closeRead hi hstage⟩
  | .closeWrite => exact ⟨_, .closeWrite hi hstage⟩
  | .wait =>
    have hborn := h.current
    rw [if_neg (by rw [hstage]; exact nofun)] at hborn
    match hstatus : (s.child s.i).status with
    | .unborn => exact absurd hstatus hborn
    | .forked => exact ⟨_, .exec hstatus⟩
    | .exited => exact ⟨_, .wait hi hstage hstatus⟩
    | .running =>
      by_cases hwrite : 0 < (s.child s.i).toWrite
      · by_cases hn : s.i + 1 < n
        · have hflow := h.flow hn
          have hle := hout s.i hn
          exact ⟨_, .write hstatus hwrite hn (h.open_read hn) (by omega)⟩
        · exact ⟨_, .print hstatus hwrite (Nat.not_lt.1 hn)⟩
      · cases hend : (s.child s.i).atEnd with
        | true => exact ⟨_, .exit hstatus (Nat.eq_zero_of_not_pos hwrite) hend⟩
        | false =>
          by_cases hpipe : 0 < s.i ∧ 0 < s.pipe (s.i - 1)
          · exact ⟨_, .read hstatus hend hpipe.1 hpipe.2⟩
          · refine ⟨_, .eof hstatus hend fun hpos => ⟨?_, h.not_open_write hpos⟩⟩
            exact Nat.eq_zero_of_not_pos fun hlt => hpipe ⟨hpos, hlt⟩

/-- **A command that writes more than a pipe holds** keeps the parent from returning, and there
is a state in which nobody can take a step. -/
theorem stuck_of_long (hk : k + 1 < n) (hlong : C < out k) :
    ∃ s, Reached n C out s ∧ ¬s.Returned n ∧ ∀ t, ¬Step n C s t := by
  have hstart : (start n out).Inv n C out := start_inv
  have hkeep : ∀ {s t : Pipeline}, s.Inv n C out → Step n C s t → t.Inv n C out ∧ t.size n < s.size n :=
    fun hI hstep => hstep.spec hI
  obtain ⟨s, hreach, hinv, hlast⟩ := exists_last (size n) hkeep hstart
  refine ⟨s, hreach, fun hreturned => ?_, hlast⟩
  have hle := hinv.bound k (Nat.lt_of_lt_of_le (Nat.lt_of_succ_lt hk) hreturned) hk
  exact Nat.not_lt.2 hle hlong

/-- **Foreground pipelines do not deadlock** if and only if no command but the last writes more
than a pipe holds. -/
theorem progress_iff (n C : ℕ) (out : ℕ → ℕ) :
    Progress n C out ↔ ∀ k, k + 1 < n → out k ≤ C := by
  constructor
  · intro hprogress k hk
    by_contra hlong
    obtain ⟨s, hreach, hreturned, hlast⟩ := stuck_of_long hk (Nat.not_le.1 hlong)
    obtain ⟨t, hstep⟩ := hprogress s hreach hreturned
    exact hlast t hstep
  · intro hout s hreach hreturned
    exact hreach.inv.step hout (Nat.not_le.1 hreturned)

/-- Two commands, of which the first writes a byte more than the pipe holds. -/
theorem not_progress : ¬Progress 2 65536 fun _ => 65537 := by
  intro hprogress
  have hstuck : ∃ s, Reached 2 65536 (fun _ => 65537) s ∧ ¬s.Returned 2 ∧ ∀ t, ¬Step 2 65536 s t :=
    stuck_of_long (k := 0) (by decide) (by decide)
  obtain ⟨s, hreach, hreturned, hlast⟩ := hstuck
  obtain ⟨t, hstep⟩ := hprogress s hreach hreturned
  exact hlast t hstep

end Pipeline

end Shell
end CS162

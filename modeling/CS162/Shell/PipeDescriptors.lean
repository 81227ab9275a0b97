/-
# The descriptors of a pipeline

`hw-shell/shell.c`, lines 232-238 and 265-318: the pipes that `run_command_with_pipes` makes, what
each child does with the descriptors that it inherits until it calls `execv`, and what the parent
closes.  Every call of `pipe`, `fork` and `open` succeeds.

In front of its loop the shell has both ends of all pipes.  `Held` says which ends it still has, and
where; a step keeps it (`Held.parentStep`), and what a child has at its `execv` follows
(`Held.childFds`, `runCommandWithPipes_descriptors`).
-/

import CS162.Basis.Descriptors
import CS162.Shell.PipeParsing
import Mathlib.Logic.Function.Basic

namespace CS162
namespace Shell

open CS162.Basis

/-- What a descriptor can refer to: something that the shell had before, a file of a redirection, or
an end of the pipe that was made as number `j`. -/
inductive Description (δ : Type)
  | inherited (d : δ)
  | file (output : Bool) (name : Token)
  | pipe (j : ℕ) (write : Bool)
deriving DecidableEq

abbrev Fds (δ : Type) := FdTable (Description δ)

/-- `pipe_arr`: `pipe_arr[j][0]` is `arr j false`, and `pipe_arr[j][1]` is `arr j true`. -/
abbrev PipeArr := ℕ → Bool → ℕ

/-- The shell's descriptors, and what was closed so far. -/
structure Parent (δ : Type) where
  fds : Fds δ
  closed : List (Option (Description δ))

variable {δ : Type}

/-! ### `run_command_with_pipes` -/

/-- The table at the start, in which every description is an older one. -/
def inheritedFds (base : FdTable δ) : Fds δ := ⟨base.entries.map (Option.map .inherited)⟩

/-- `pipe(pipe_arr[j])`. -/
def pipeCall (j : ℕ) (arr : PipeArr) (t : Fds δ) : PipeArr × Fds δ :=
  let readEnd := t.lowest
  let t := t.opened (.pipe j false)
  let writeEnd := t.lowest
  let t := t.opened (.pipe j true)
  (Function.update arr j fun write => if write then writeEnd else readEnd, t)

/-- The loop that makes the pipes. -/
def createPipes : ℕ → ℕ → PipeArr → Fds δ → PipeArr × Fds δ
  | 0, _, arr, t => (arr, t)
  | left + 1, j, arr, t => createPipes left (j + 1) (pipeCall j arr t).1 (pipeCall j arr t).2

/-- The loop in which a child closes the pipes. -/
def closePipes (arr : PipeArr) : ℕ → ℕ → Fds δ → Fds δ
  | 0, _, t => t
  | left + 1, j, t => closePipes arr left (j + 1) ((t.close (arr j false)).close (arr j true))

/-- A redirection's file is opened, if there is one. -/
def redirect (t : Fds δ) (output : Bool) (new : ℕ) : Option Token → Fds δ
  | none => t
  | some name => t.openOnto (.file output name) new

/-- The descriptors of child `i` at its `execv`; it begins with those of the parent. -/
def childFds (arr : PipeArr) (n i : ℕ) (command : Command) (t : Fds δ) : Fds δ :=
  let t := if 0 < i then t.dup2 (arr (i - 1) false) 0 else t
  let t := if i + 1 < n then t.dup2 (arr i true) 1 else t
  let t := redirect t false 0 command.input
  let t := redirect t true 1 command.output
  closePipes arr (n - 1) 0 t

def Parent.close (p : Parent δ) (fd : ℕ) : Parent δ where
  fds := p.fds.close fd
  closed := p.closed ++ [p.fds.desc fd]

/-- What the parent does after it has forked child `i`. -/
def parentStep (arr : PipeArr) (n i : ℕ) (p : Parent δ) : Parent δ :=
  let p := if 0 < i then p.close (arr (i - 1) false) else p
  if i + 1 < n then p.close (arr i true) else p

/-- The loop over the commands: the tables of the children, and the parent at the end. -/
def forkChildren (arr : PipeArr) (n : ℕ) :
    ℕ → List Command → Parent δ → List (Fds δ) × Parent δ
  | _, [], p => ([], p)
  | i, command :: commands, p =>
    let (children, q) := forkChildren arr n (i + 1) commands (parentStep arr n i p)
    (childFds arr n i command p.fds :: children, q)

/-- The children and the parent; `garbage` is in `pipe_arr` at first. -/
def runCommandWithPipes (turns : ℕ) (tokens : List Token) (garbage : PipeArr) (base : FdTable δ) :
    Option (List (Fds δ) × Parent δ) := do
  let n := numCommands tokens
  let (arr, t) := createPipes (n - 1) 0 garbage (inheritedFds base)
  let commands ← forkCommands turns tokens
  return forkChildren arr n 0 commands ⟨t, []⟩

/-! ### The ends that are held -/

/-- The table has exactly those of the ends of `m` pipes that are open, at their numbers, and
everything else is as in `u`. -/
structure Held (u : Fds δ) (arr : PipeArr) (m : ℕ) (isOpen : ℕ → Bool → Bool) (t : Fds δ) :
    Prop where
  ends : ∀ j < m, ∀ write, t.desc (arr j write) =
    if isOpen j write then some (.pipe j write) else none
  rest : ∀ fd, (∀ j < m, ∀ write, fd ≠ arr j write) → t.desc fd = u.desc fd

/-- The numbers of the ends are apart, and were free; none is a standard descriptor. -/
structure Apart (u : Fds δ) (arr : PipeArr) (m : ℕ) : Prop where
  high : ∀ j < m, ∀ write, 2 < arr j write
  free : ∀ j < m, ∀ write, u.desc (arr j write) = none
  apart : ∀ j < m, ∀ j' < m, ∀ write write', arr j write = arr j' write' → j = j' ∧ write = write'

section Held

variable {base : FdTable δ} {u t t' : Fds δ} {arr : PipeArr} {m n i j k fd new : ℕ} {write : Bool}
  {isOpen isOpen' : ℕ → Bool → Bool} {d : Description δ}

theorem desc_inheritedFds : (inheritedFds base).desc fd = (base.desc fd).map .inherited := by
  unfold FdTable.desc inheritedFds
  dsimp only
  rw [List.getElem?_map]
  cases base.entries[fd]? with
  | none => rfl
  | some e => rfl

theorem inheritedFds_ne : (inheritedFds base).desc fd ≠ some (.pipe j write) := by
  rw [desc_inheritedFds]
  cases base.desc fd with
  | none => exact fun h => Option.noConfusion rfl (heq_of_eq h)
  | some d => exact fun h => by injection h with h; injection h

/-- An end is closed, also one that is not open any more. -/
theorem Held.close (h : Held u arr m isOpen t) (ha : Apart u arr m) (hj : j < m)
    (hclosed : isOpen' j write = false)
    (hsame : ∀ j' write', (j', write') ≠ (j, write) → isOpen' j' write' = isOpen j' write') :
    Held u arr m isOpen' (t.close (arr j write)) where
  ends j' hj' write' := by
    rw [FdTable.desc_close]
    by_cases heq : (j', write') = (j, write)
    · obtain ⟨rfl, rfl⟩ := Prod.mk.inj heq
      rw [if_pos rfl, hclosed]
      rfl
    · rw [if_neg fun harr => heq (Prod.ext_iff.2 (ha.apart _ hj' _ hj _ _ harr)), hsame _ _ heq]
      exact h.ends j' hj' write'
  rest fd hfd := by
    rw [FdTable.desc_close, if_neg (hfd j hj write)]
    exact h.rest fd hfd

/-- A standard descriptor comes to refer to something else. -/
theorem Held.put (h : Held u arr m isOpen t) (ha : Apart u arr m) (hnew : new ≤ 2)
    (ht : ∀ fd, t'.desc fd = if fd = new then some d else t.desc fd) :
    Held (u.set new (some d)) arr m isOpen t' where
  ends j hj write := by
    have hhigh := ha.high j hj write
    rw [ht, if_neg (by omega)]
    exact h.ends j hj write
  rest fd hfd := by
    rw [ht, FdTable.desc_set, h.rest fd hfd]

theorem Apart.put (ha : Apart u arr m) (hnew : new ≤ 2) : Apart (u.set new (some d)) arr m where
  high := ha.high
  free j hj write := by
    have hhigh := ha.high j hj write
    rw [FdTable.desc_set, if_neg (by omega)]
    exact ha.free j hj write
  apart := ha.apart

/-- Without the pipes the table is the other one. -/
theorem Held.desc_eq (h : Held u arr m (fun _ _ => false) t) (ha : Apart u arr m) (fd : ℕ) :
    t.desc fd = u.desc fd := by
  by_cases hfd : ∃ j, j < m ∧ ∃ write, fd = arr j write
  · obtain ⟨j, hj, write, rfl⟩ := hfd
    rw [h.ends j hj write, ha.free j hj write]
    rfl
  · exact h.rest fd fun j hj write heq => hfd ⟨j, hj, write, heq⟩

theorem Held.std (h : Held u arr m isOpen t) (ha : Apart u arr m) (hfd : fd ≤ 2) :
    t.desc fd = u.desc fd :=
  h.rest fd fun j hj write heq => by
    have hhigh := ha.high j hj write
    omega

/-! ### The pipes are made -/

/-- A number that is free is none of the ends, and was free before. -/
theorem Held.of_free (h : Held u arr m (fun _ _ => true) t) (hfree : t.desc fd = none) :
    (∀ j < m, ∀ write, fd ≠ arr j write) ∧ u.desc fd = none := by
  have hne : ∀ j < m, ∀ write, fd ≠ arr j write := by
    rintro j hj write rfl
    rw [h.ends j hj write] at hfree
    exact Option.noConfusion rfl (heq_of_eq hfree)
  exact ⟨hne, (h.rest fd hne).symm.trans hfree⟩

/-- **Two new ends.** -/
theorem Held.add (h : Held u arr j (fun _ _ => true) t) (ha : Apart u arr j) {ends : Bool → ℕ}
    (hne : ends true ≠ ends false) (hhigh : ∀ write, 2 < ends write)
    (hfree : ∀ write, t.desc (ends write) = none)
    (hends : ∀ write, t'.desc (ends write) = some (.pipe j write))
    (hrest : ∀ fd, (∀ write, fd ≠ ends write) → t'.desc fd = t.desc fd) :
    Held u (Function.update arr j ends) (j + 1) (fun _ _ => true) t' ∧
      Apart u (Function.update arr j ends) (j + 1) := by
  have hself : Function.update arr j ends j = ends := Function.update_self ..
  have hold : ∀ j' < j, Function.update arr j ends j' = arr j' := fun j' hj' =>
    Function.update_of_ne (Nat.ne_of_lt hj') ..
  have hnew : ∀ j' < j, ∀ write write', arr j' write ≠ ends write' := fun j' hj' write write' heq =>
    (h.of_free (hfree write')).1 j' hj' write heq.symm
  constructor
  · constructor
    · intro j' hj' write
      rcases Nat.lt_succ_iff_lt_or_eq.1 hj' with hlt | rfl
      · rw [hold j' hlt, hrest _ (hnew j' hlt write)]
        exact h.ends j' hlt write
      · rw [hself]
        exact hends write
    · intro fd hfd
      rw [hrest fd fun write => by simpa [hself] using hfd j (Nat.lt_succ_self j) write]
      exact h.rest fd fun j' hj' write => by
        simpa [hold j' hj'] using hfd j' (Nat.lt_succ_of_lt hj') write
  · constructor
    · intro j' hj' write
      rcases Nat.lt_succ_iff_lt_or_eq.1 hj' with hlt | rfl
      · rw [hold j' hlt]
        exact ha.high j' hlt write
      · rw [hself]
        exact hhigh write
    · intro j' hj' write
      rcases Nat.lt_succ_iff_lt_or_eq.1 hj' with hlt | rfl
      · rw [hold j' hlt]
        exact ha.free j' hlt write
      · rw [hself]
        exact (h.of_free (hfree write)).2
    · intro j' hj' k hk write write' heq
      rcases Nat.lt_succ_iff_lt_or_eq.1 hj' with hlt | rfl
      · rw [hold j' hlt] at heq
        rcases Nat.lt_succ_iff_lt_or_eq.1 hk with hkt | rfl
        · rw [hold k hkt] at heq
          exact ha.apart j' hlt k hkt write write' heq
        · rw [hself] at heq
          exact absurd heq (hnew j' hlt write write')
      · rw [hself] at heq
        rcases Nat.lt_succ_iff_lt_or_eq.1 hk with hkt | rfl
        · rw [hold k hkt] at heq
          exact absurd heq.symm (hnew k hkt write' write)
        · rw [hself] at heq
          refine ⟨rfl, ?_⟩
          cases write <;> cases write'
          · rfl
          · exact absurd heq.symm hne
          · exact absurd heq hne
          · rfl

/-- **`pipe` adds its two ends.** -/
theorem Held.pipeCall (h : Held u arr j (fun _ _ => true) t) (ha : Apart u arr j)
    (hstd : ∀ fd < 3, (u.desc fd).isSome) :
    Held u (pipeCall j arr t).1 (j + 1) (fun _ _ => true) (pipeCall j arr t).2 ∧
      Apart u (pipeCall j arr t).1 (j + 1) := by
  have hsome : ∀ fd < 3, (t.desc fd).isSome := fun fd hfd => by
    rw [h.std ha (Nat.le_of_lt_succ hfd)]
    exact hstd fd hfd
  have hread : t.desc t.lowest = none := FdTable.desc_lowest
  have hwrite := FdTable.desc_lowest (t := t.opened (.pipe j false))
  have hne : (t.opened (.pipe j false)).lowest ≠ t.lowest := fun heq => by
    rw [heq, FdTable.desc_opened, if_pos rfl] at hwrite
    exact Option.noConfusion rfl (heq_of_eq hwrite)
  have hhigh : 3 ≤ (t.opened (.pipe j false)).lowest := FdTable.le_lowest fun fd hfd => by
    rw [FdTable.desc_opened]
    split_ifs
    · rfl
    · exact hsome fd hfd
  refine h.add ha (by simpa using hne) ?_ ?_ ?_ ?_
  · rintro (_ | _)
    · exact FdTable.le_lowest hsome
    · exact hhigh
  · rintro (_ | _)
    · exact hread
    · rw [FdTable.desc_opened, if_neg hne] at hwrite
      exact hwrite
  · rintro (_ | _)
    · change ((t.opened _).opened _).desc t.lowest = _
      rw [FdTable.desc_opened, if_neg (Ne.symm hne), FdTable.desc_opened, if_pos rfl]
    · change ((t.opened _).opened _).desc (t.opened _).lowest = _
      rw [FdTable.desc_opened, if_pos rfl]
  · intro fd hfd
    have hfalse : fd ≠ t.lowest := hfd false
    have htrue : fd ≠ (t.opened (.pipe j false)).lowest := hfd true
    change ((t.opened _).opened _).desc fd = _
    rw [FdTable.desc_opened, if_neg htrue, FdTable.desc_opened, if_neg hfalse]

/-- **All pipes are made**, by induction on those that are left. -/
theorem Held.createPipes (left : ℕ) (h : Held u arr j (fun _ _ => true) t) (ha : Apart u arr j)
    (hstd : ∀ fd < 3, (u.desc fd).isSome) :
    Held u (createPipes left j arr t).1 (j + left) (fun _ _ => true) (createPipes left j arr t).2 ∧
      Apart u (createPipes left j arr t).1 (j + left) := by
  induction left generalizing j arr t with
  | zero => exact ⟨h, ha⟩
  | succ left ih =>
    obtain ⟨hcall, hapart⟩ := h.pipeCall ha hstd
    rw [← Nat.add_assoc, Nat.add_right_comm]
    exact ih hcall hapart

/-! ### A child -/

theorem Held.congr (h : Held u arr m isOpen t)
    (hsame : ∀ j < m, ∀ write, isOpen' j write = isOpen j write) : Held u arr m isOpen' t where
  ends j hj write := by
    rw [hsame j hj write]
    exact h.ends j hj write
  rest := h.rest

/-- **The loop that closes the pipes**, by induction on those that are left: all in front of `j` are
closed. -/
theorem Held.closePipes (left : ℕ) (hleft : j + left = m) (ha : Apart u arr m)
    (h : Held u arr m (fun j' write => isOpen j' write && decide (j ≤ j')) t) :
    Held u arr m (fun _ _ => false) (closePipes arr left j t) := by
  induction left generalizing j t with
  | zero =>
    refine h.congr fun j' hj' write => ?_
    rw [decide_eq_false (by omega), Bool.and_false]
  | succ left ih =>
    have hj : j < m := by omega
    have hread : Held u arr m (fun j' write => isOpen j' write && decide (j ≤ j') &&
        (j' != j || write)) (t.close (arr j false)) :=
      h.close ha hj (by simp) fun j' write hne => by
        have hor : (j' != j || write) = true := by
          cases write
          · simpa using fun heq => hne (by rw [heq])
          · exact Bool.or_true _
        rw [hor, Bool.and_true]
    refine ih (by omega) (hread.close ha hj (by simp) fun j' write hne => ?_)
    by_cases heq : j' = j
    · cases write
      · simp [heq]
      · exact absurd (by rw [heq]) hne
    · have hle : decide (j ≤ j') = decide (j + 1 ≤ j') := by
        rw [decide_eq_decide]
        omega
      simp [heq, hle]

theorem Held.closeAll (h : Held u arr m isOpen t) (ha : Apart u arr m) :
    Held u arr m (fun _ _ => false) (Shell.closePipes arr m 0 t) := by
  have hstart : Held u arr m (fun j write => isOpen j write && decide (0 ≤ j)) t :=
    h.congr fun j _ write => by simp
  exact hstart.closePipes m (Nat.zero_add m) ha

/-- A table of descriptors in which the standard ones are open. -/
structure Ready (u : Fds δ) (arr : PipeArr) (m : ℕ) (isOpen : ℕ → Bool → Bool) (t : Fds δ) :
    Prop where
  held : Held u arr m isOpen t
  apart : Apart u arr m
  std : ∀ fd < 3, (u.desc fd).isSome

theorem Ready.put (h : Ready u arr m isOpen t) (hnew : new ≤ 2)
    (ht : ∀ fd, t'.desc fd = if fd = new then some d else t.desc fd) :
    Ready (u.set new (some d)) arr m isOpen t' where
  held := h.held.put h.apart hnew ht
  apart := h.apart.put hnew
  std fd hfd := by
    rw [FdTable.desc_set]
    split_ifs
    · rfl
    · exact h.std fd hfd

/-- `dup2` of an end that is open, if there is one to be duplicated. -/
theorem Ready.dup2 (h : Ready u arr m isOpen t) (c : Prop) [Decidable c]
    (hend : c → j < m ∧ isOpen j write = true) (hnew : new ≤ 2) :
    Ready (if c then u.set new (some (.pipe j write)) else u) arr m isOpen
      (if c then t.dup2 (arr j write) new else t) := by
  split_ifs with hc
  · obtain ⟨hj, hopen⟩ := hend hc
    refine h.put hnew fun fd => FdTable.desc_dup2 ?_
    rw [h.held.ends j hj write, if_pos hopen]
  · exact h

/-- `u`, but for the file that is opened. -/
def putFile (u : Fds δ) (output : Bool) (new : ℕ) : Option Token → Fds δ
  | none => u
  | some name => u.set new (some (.file output name))

theorem Ready.redirect (h : Ready u arr m isOpen t) (output : Bool) (hnew : new ≤ 2)
    (file : Option Token) :
    Ready (putFile u output new file) arr m isOpen (redirect t output new file) := by
  cases file with
  | none => exact h
  | some name =>
    refine h.put hnew fun fd => FdTable.desc_openOnto ?_
    rw [h.held.std h.apart hnew]
    exact h.std new (Nat.lt_succ_of_le hnew)

theorem desc_setIf {c : Prop} [Decidable c] {e : Option (Description δ)} :
    (if c then u.set new e else u).desc fd = if fd = new ∧ c then e else u.desc fd := by
  by_cases hc : c
  · rw [if_pos hc, FdTable.desc_set]
    simp [hc]
  · rw [if_neg hc, if_neg fun hboth => hc hboth.2]

theorem desc_putFile {output : Bool} {file : Option Token} :
    (putFile u output new file).desc fd = if fd = new then
      match file with
      | some name => some (.file output name)
      | none => u.desc new
    else u.desc fd := by
  cases file with
  | none =>
    split_ifs with heq
    · rw [heq]
      rfl
    · rfl
  | some name => exact FdTable.desc_set

/-- The ends that the parent still has when it forks child `i`. -/
def stillOpen (i j : ℕ) : Bool → Bool
  | false => i ≤ j + 1
  | true => i ≤ j

/-- A child's table at its `execv`. -/
structure AtExec (base : FdTable δ) (n i : ℕ) (command : Command) (t : Fds δ) : Prop where
  /-- The read end of the pipe in front, or else the input file, or else what was inherited. -/
  stdin : t.desc 0 =
    if 0 < i then some (.pipe (i - 1) false)
    else match command.input with
      | some name => some (.file false name)
      | none => (base.desc 0).map .inherited
  /-- The write end of the pipe behind, or else the output file, or else what was inherited. -/
  stdout : t.desc 1 =
    if i + 1 < n then some (.pipe i true)
    else match command.output with
      | some name => some (.file true name)
      | none => (base.desc 1).map .inherited
  /-- Nothing else was changed. -/
  others : ∀ fd, 1 < fd → t.desc fd = (base.desc fd).map .inherited

/-- **A child at its `execv`.** -/
theorem Ready.atExec {command : Command} (h : Ready (inheritedFds base) arr m (stillOpen i) t)
    (hi : i ≤ m) (hinput : 0 < i → command.input = none)
    (houtput : i < m → command.output = none) :
    AtExec base (m + 1) i command (childFds arr (m + 1) i command t) := by
  have hread : 0 < i → i - 1 < m ∧ stillOpen i (i - 1) false = true := fun hpos =>
    ⟨by omega, decide_eq_true (by omega)⟩
  have hwrite : i + 1 < m + 1 → i < m ∧ stillOpen i i true = true := fun hlt =>
    ⟨by omega, decide_eq_true (Nat.le_refl i)⟩
  have hstdin : 0 ≤ 2 := Nat.zero_le 2
  have hstdout : 1 ≤ 2 := Nat.le_succ 1
  have hready := (((h.dup2 (0 < i) hread hstdin).dup2 (i + 1 < m + 1) hwrite hstdout).redirect
    false hstdin command.input).redirect true hstdout command.output
  have hdesc : ∀ fd, (childFds arr (m + 1) i command t).desc fd = FdTable.desc _ fd :=
    (hready.held.closeAll hready.apart).desc_eq hready.apart
  constructor
  · rw [hdesc, desc_putFile, if_neg Nat.zero_ne_one, desc_putFile, if_pos rfl, desc_setIf,
      if_neg (by omega), desc_setIf]
    by_cases hpos : 0 < i
    · rw [if_pos ⟨rfl, hpos⟩, if_pos hpos, hinput hpos]
    · rw [if_neg fun hboth => hpos hboth.2, if_neg hpos, desc_inheritedFds]
  · rw [hdesc, desc_putFile, if_pos rfl, desc_putFile, if_neg Nat.one_ne_zero, desc_setIf,
      desc_setIf, if_neg (by omega : ¬(1 = 0 ∧ 0 < i))]
    by_cases hlt : i + 1 < m + 1
    · rw [if_pos ⟨rfl, hlt⟩, if_pos hlt, houtput (by omega)]
    · rw [if_neg fun hboth => hlt hboth.2, if_neg hlt, desc_inheritedFds]
  · intro fd hfd
    rw [hdesc, desc_putFile, if_neg (by omega), desc_putFile, if_neg (by omega), desc_setIf,
      if_neg (by omega), desc_setIf, if_neg (by omega), desc_inheritedFds]

theorem pipe_inj {j' : ℕ} {write' : Bool} :
    (some (.pipe j write) : Option (Description δ)) = some (.pipe j' write') ↔
      j' = j ∧ write' = write := by
  constructor
  · intro h
    injection h with h
    injection h with h h'
    exact ⟨h.symm, h'.symm⟩
  · rintro ⟨rfl, rfl⟩
    rfl

/-- What was inherited, and a file, is no pipe. -/
theorem standard_ne {output : Bool} {file : Option Token} :
    (match file with
      | some name => some (.file output name)
      | none => (base.desc fd).map .inherited) ≠ some (Description.pipe j write) := by
  cases file with
  | none =>
    rw [← desc_inheritedFds]
    exact inheritedFds_ne
  | some name => exact fun h => by injection h with h; injection h

/-- **The pipe ends of a child**: one of each neighbouring pipe, at the standard descriptors. -/
theorem AtExec.pipe_iff {command : Command} (h : AtExec base n i command t) :
    t.desc fd = some (.pipe j write) ↔
      (0 < i ∧ fd = 0 ∧ j = i - 1 ∧ write = false) ∨
        (i + 1 < n ∧ fd = 1 ∧ j = i ∧ write = true) := by
  rcases Nat.lt_or_ge 1 fd with hmore | hle
  · rw [h.others fd hmore, ← desc_inheritedFds]
    exact iff_of_false inheritedFds_ne (by omega)
  rcases Nat.le_one_iff_eq_zero_or_eq_one.1 hle with rfl | rfl
  · rw [h.stdin]
    split_ifs with hpos
    · rw [pipe_inj]
      simp [hpos]
    · exact iff_of_false standard_ne (by simp [hpos])
  · rw [h.stdout]
    split_ifs with hlt
    · rw [pipe_inj]
      simp [hlt]
    · exact iff_of_false standard_ne (by simp [hlt])

/-! ### The parent -/

section Parent

variable [DecidableEq δ] {p : Parent δ} {commands : List Command}

/-- The ends that are not open any more were closed once, and nothing else was closed. -/
structure Parent.Closes (u : Fds δ) (arr : PipeArr) (m : ℕ) (isOpen : ℕ → Bool → Bool)
    (p : Parent δ) : Prop where
  ready : Ready u arr m isOpen p.fds
  once : ∀ j < m, ∀ write, p.closed.count (some (.pipe j write)) = if isOpen j write then 0 else 1
  only : ∀ e ∈ p.closed, ∃ j < m, ∃ write, e = some (.pipe j write)

theorem Parent.Closes.congr (h : p.Closes u arr m isOpen)
    (hsame : ∀ j < m, ∀ write, isOpen' j write = isOpen j write) : p.Closes u arr m isOpen' where
  ready := ⟨h.ready.held.congr hsame, h.ready.apart, h.ready.std⟩
  once j hj write := by
    rw [hsame j hj write]
    exact h.once j hj write
  only := h.only

/-- **An open end is closed.** -/
theorem Parent.Closes.close (h : p.Closes u arr m isOpen) (hj : j < m)
    (hopen : isOpen j write = true) (hclosed : isOpen' j write = false)
    (hsame : ∀ j' write', (j', write') ≠ (j, write) → isOpen' j' write' = isOpen j' write') :
    (p.close (arr j write)).Closes u arr m isOpen' := by
  have hdesc : p.fds.desc (arr j write) = some (.pipe j write) := by
    rw [h.ready.held.ends j hj write, if_pos hopen]
  refine ⟨⟨h.ready.held.close h.ready.apart hj hclosed hsame, h.ready.apart, h.ready.std⟩, ?_, ?_⟩
  · intro j' hj' write'
    rw [Parent.close, hdesc, List.count_append, h.once j' hj' write', List.count_singleton]
    by_cases heq : (j', write') = (j, write)
    · obtain ⟨rfl, rfl⟩ := Prod.mk.inj heq
      simp [hopen, hclosed]
    · have hne : ¬(some (Description.pipe j write : Description δ) = some (.pipe j' write')) :=
        fun hpipe => heq (by injection hpipe with hpipe; injection hpipe with h1 h2; rw [h1, h2])
      rw [hsame j' write' heq, beq_eq_false_iff_ne.2 hne]
      rfl
  · intro e he
    rw [Parent.close, hdesc] at he
    rcases List.mem_append.1 he with hold | hnew
    · exact h.only e hold
    · exact ⟨j, hj, write, List.mem_singleton.1 hnew⟩

/-- **A turn of the loop in the parent.** -/
theorem Parent.Closes.parentStep (h : p.Closes u arr m (stillOpen i)) (hi : i ≤ m) :
    (parentStep arr (m + 1) i p).Closes u arr m (stillOpen (i + 1)) := by
  have hread : (if 0 < i then p.close (arr (i - 1) false) else p).Closes u arr m
      fun j write => if write then stillOpen i j true else stillOpen (i + 1) j false := by
    split_ifs with hpos
    · refine h.close (by omega) (decide_eq_true (by omega)) (decide_eq_false (by omega))
        fun j write hne => ?_
      cases write
      · refine decide_eq_decide.2 ?_
        have hj : j ≠ i - 1 := fun heq => hne (by rw [heq])
        omega
      · rfl
    · refine h.congr fun j hj write => ?_
      cases write
      · exact decide_eq_decide.2 (by omega)
      · rfl
  unfold Shell.parentStep
  dsimp only
  by_cases hlt : i + 1 < m + 1
  · have hopen : (if true then stillOpen i i true else stillOpen (i + 1) i false) = true :=
      decide_eq_true (Nat.le_refl i)
    have hclosed : stillOpen (i + 1) i true = false := decide_eq_false (by omega)
    rw [if_pos hlt]
    refine hread.close (by omega) hopen hclosed fun j write hne => ?_
    cases write
    · rfl
    · refine decide_eq_decide.2 ?_
      have hj : j ≠ i := fun heq => hne (by rw [heq])
      omega
  · rw [if_neg hlt]
    refine hread.congr fun j hj write => ?_
    cases write
    · rfl
    · exact decide_eq_decide.2 (by omega)

/-- **The loop over the commands**, by induction on those that are left. -/
theorem Parent.Closes.loop (h : p.Closes (inheritedFds base) arr m (stillOpen i))
    (hn : i + commands.length = m + 1)
    (hfiles : ∀ k command, commands[k]? = some command →
      (0 < i + k → command.input = none) ∧ (i + k < m → command.output = none)) :
    (forkChildren arr (m + 1) i commands p).1.length = commands.length ∧
      (∀ k command child, commands[k]? = some command →
        (forkChildren arr (m + 1) i commands p).1[k]? = some child →
          AtExec base (m + 1) (i + k) command child) ∧
      (forkChildren arr (m + 1) i commands p).2.Closes (inheritedFds base) arr m
        (stillOpen (m + 1)) := by
  induction commands generalizing i p with
  | nil =>
    have hi : i = m + 1 := hn
    exact ⟨rfl, fun k command child hcommand => absurd hcommand (by simp), hi ▸ h⟩
  | cons command commands ih =>
    rw [List.length_cons] at hn
    have hfiles' : ∀ k c, commands[k]? = some c →
        (0 < i + 1 + k → c.input = none) ∧ (i + 1 + k < m → c.output = none) := fun k c hc => by
      rw [Nat.add_assoc, Nat.add_comm 1]
      exact hfiles (k + 1) c hc
    obtain ⟨hlength, hchildren, hparent⟩ := ih (h.parentStep (by omega)) (by omega) hfiles'
    refine ⟨congrArg (· + 1) hlength, fun k c child hc hchild => ?_, hparent⟩
    cases k with
    | zero =>
      obtain rfl := Option.some_inj.1 hc
      obtain rfl := Option.some_inj.1 hchild
      exact h.ready.atExec (by omega) (hfiles 0 command rfl).1 (hfiles 0 command rfl).2
    | succ k =>
      rw [Nat.add_comm k, ← Nat.add_assoc]
      exact hchildren k c child hc hchild

/-- What the commands of a pipeline and the shell are left with. -/
structure Piped (base : FdTable δ) (n : ℕ) (commands : List Command) (children : List (Fds δ))
    (p : Parent δ) : Prop where
  commands_length : commands.length = n
  children_length : children.length = n
  atExec : ∀ (i : ℕ) command child, commands[i]? = some command → children[i]? = some child →
    AtExec base n i command child
  /-- Nothing but the standard descriptors of the two neighbours refers to a pipe. -/
  ends : ∀ (i : ℕ) child, children[i]? = some child → ∀ j write fd,
    child.desc fd = some (.pipe j write) ↔
      (0 < i ∧ fd = 0 ∧ j = i - 1 ∧ write = false) ∨
        (i + 1 < n ∧ fd = 1 ∧ j = i ∧ write = true)
  /-- The parent has closed every end once, and nothing else. -/
  once : ∀ j < n - 1, ∀ write, p.closed.count (some (.pipe j write)) = 1
  only : ∀ e ∈ p.closed, ∃ j < n - 1, ∃ write, e = some (.pipe j write)
  /-- The parent has what it had before. -/
  fds : ∀ fd, p.fds.desc fd = (base.desc fd).map .inherited

/-- The parent in front of the loop, which has all ends. -/
theorem Parent.Closes.start (garbage : PipeArr) (m : ℕ) (hstd : ∀ fd < 3, (base.desc fd).isSome) :
    Parent.Closes (inheritedFds base) (createPipes m 0 garbage (inheritedFds base)).1 m
      (stillOpen 0) ⟨(createPipes m 0 garbage (inheritedFds base)).2, []⟩ := by
  have hinherited : ∀ fd < 3, ((inheritedFds base).desc fd).isSome := fun fd hfd => by
    rw [desc_inheritedFds, Option.isSome_map]
    exact hstd fd hfd
  have hnone : Held (inheritedFds base) garbage 0 (fun _ _ => true) (inheritedFds base) :=
    ⟨fun j hj => absurd hj (Nat.not_lt_zero j), fun fd _ => rfl⟩
  have hapart : Apart (inheritedFds base) garbage 0 :=
    ⟨fun j hj => absurd hj (Nat.not_lt_zero j), fun j hj => absurd hj (Nat.not_lt_zero j),
      fun j hj => absurd hj (Nat.not_lt_zero j)⟩
  have hopen : ∀ j write, stillOpen 0 j write = true := fun j write => by
    cases write
    · exact decide_eq_true (Nat.zero_le (j + 1))
    · exact decide_eq_true (Nat.zero_le j)
  obtain ⟨hheld, hapart⟩ := hnone.createPipes m hapart hinherited
  rw [Nat.zero_add] at hheld hapart
  refine ⟨⟨hheld.congr fun j _ write => hopen j write, hapart, hinherited⟩, fun j _ write => ?_, ?_⟩
  · rw [if_pos (hopen j write)]
    rfl
  · exact fun e he => absurd he List.not_mem_nil

/-- **The loop leaves the children and the parent as they should be.** -/
theorem Parent.Closes.piped (h : Parent.Closes (inheritedFds base) arr m (stillOpen 0) ⟨t, []⟩)
    (hlength : commands.length = m + 1)
    (hfiles : ∀ k command, commands[k]? = some command →
      (0 < 0 + k → command.input = none) ∧ (0 + k < m → command.output = none)) :
    Piped base (m + 1) commands (forkChildren arr (m + 1) 0 commands ⟨t, []⟩).1
      (forkChildren arr (m + 1) 0 commands ⟨t, []⟩).2 := by
  obtain ⟨hchildren, hexec, hparent⟩ := h.loop (by omega) hfiles
  have hclosed : ∀ j < m, ∀ write, stillOpen (m + 1) j write = false := fun j hj write => by
    cases write
    · exact decide_eq_false (by omega)
    · exact decide_eq_false (by omega)
  have hatExec : ∀ (i : ℕ) command child, commands[i]? = some command →
      (forkChildren arr (m + 1) 0 commands ⟨t, []⟩).1[i]? = some child →
      AtExec base (m + 1) i command child := fun i command child hcommand hchild => by
    have hat := hexec i command child hcommand hchild
    rw [Nat.zero_add] at hat
    exact hat
  refine ⟨hlength, hchildren.trans hlength, hatExec, ?_, ?_, hparent.only, ?_⟩
  · intro i child hchild j write fd
    have hi := (List.getElem?_eq_some_iff.1 hchild).1
    rw [hchildren] at hi
    exact (hatExec i _ child (List.getElem?_eq_getElem hi) hchild).pipe_iff
  · intro j hj write
    have honce := hparent.once j hj write
    rw [hclosed j hj write] at honce
    exact honce
  · intro fd
    have hnone := hparent.ready.held.congr fun j hj write => (hclosed j hj write).symm
    rw [hnone.desc_eq hparent.ready.apart, desc_inheritedFds]

/-- **The descriptors of a pipeline**, for any line. -/
theorem runCommandWithPipes_descriptors {turns : ℕ} {tokens : List Token} {garbage : PipeArr}
    (hstd : ∀ fd < 3, (base.desc fd).isSome) (hturns : tokens.length < turns) :
    ∃ commands children p, forkCommands turns tokens = some commands ∧
      runCommandWithPipes turns tokens garbage base = some (children, p) ∧
      Piped base (numCommands tokens) commands children p := by
  obtain ⟨commands, hcommands, hlength, hfiles⟩ : ∃ commands,
    forkLoop turns tokens (numCommands tokens) 0 0 = some commands ∧ _ := forkLoop_returns hturns
  have hpiped := (Parent.Closes.start garbage (tokens.count bar) hstd).piped hlength
    fun k command hcommand => (hfiles k command hcommand).imp_right fun houtput hlt =>
      houtput (Nat.succ_lt_succ hlt)
  refine ⟨commands, _, _, hcommands, ?_, hpiped⟩
  unfold runCommandWithPipes
  dsimp only
  rw [forkCommands, hcommands]
  rfl

end Parent

end Held

/-- `a|b` with the terminal at the standard descriptors. -/
theorem runCommandWithPipes_descriptors_two :
    ∃ commands children p, forkCommands 4 [[97], bar, [98]] = some commands ∧
      runCommandWithPipes 4 [[97], bar, [98]] (fun _ _ => 0) ⟨List.replicate 3 (some ())⟩ =
        some (children, p) ∧
      Piped ⟨List.replicate 3 (some ())⟩ 2 commands children p :=
  runCommandWithPipes_descriptors (by decide) (by decide)

end Shell
end CS162

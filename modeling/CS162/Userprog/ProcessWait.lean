/-
# Where process_wait begins

`projects1-3/src/userprog/process.c`, lines 232-273 (`release_child` and `process_wait`), on the
list that `projects1-3/src/userprog/process.h` lays out in the memory: `children` is at offset 4
of a `struct process`, and a `struct wait_status` begins with its list element and has `lock`,
`ref_cnt`, `pid`, `exit_code` and `dead` at 8, 40, 44, 48 and 52.

The loop begins at `list_head`, which is no element: what it reads there as the `pid` of a status
lies 44 bytes further in the `struct process`.  A call is right about the children unless this word
is the pid that it is asked for, and never leaves the head alone (`processWait_never`).

The semaphore and the lock of a status let other processes run.
-/

import CS162.Lib.ListSort

namespace CS162
namespace Userprog

open CS162.Basis CS162.Lib CS162.Lib.Linked

/-- The memory, and as history the statuses that were read and those that were freed. -/
structure Waits where
  mem : Memory
  statuses : List ℕ
  freed : List ℕ

/-- A program on the memory. -/
def onMemory {α : Type} (x : Prog Memory α) : Prog Waits α := fun W =>
  (x.run W.mem).map fun r => (r.1, { W with mem := r.2 })

/-- The semaphores and locks of the kernel. -/
structure Sync where
  semaDown : ℕ → Prog Memory Unit
  lockAcquire : ℕ → Prog Memory Unit
  lockRelease : ℕ → Prog Memory Unit

/-- `&cur->pcb->children`. -/
def children (pcb : ℕ) : ℕ := pcb + 4

/-- `cs->pid`. -/
def pidAt (m : Memory) (cs : ℕ) : ℕ := fieldAt m cs 44

/-- A field of a status. -/
def readStatus (cs off : ℕ) : Prog Waits ℕ := do
  modify fun W => { W with statuses := W.statuses ++ [cs] }
  onMemory (readField cs off)

/-- `release_child`. -/
def releaseChild (S : Sync) (cs : ℕ) : Prog Waits Unit := do
  onMemory (S.lockAcquire (cs + 8))
  let refCnt ← readStatus cs 40
  let newRef := (refCnt + (2 ^ 32 - 1)) % 2 ^ 32
  onMemory (writeField cs 40 newRef)
  onMemory (S.lockRelease (cs + 8))
  if newRef = 0 then modify fun W => { W with freed := W.freed ++ [cs] } else return ()

/-- The loop of `process_wait` from the element `e` on. -/
def waitLoop (S : Sync) (pcb childPid : ℕ) : ℕ → ℕ → Prog Waits ℕ
  | 0, _ => halt
  | fuel + 1, e =>
    if e = listTail (children pcb) then return 2 ^ 32 - 1 else do
    let cs := e
    let pid ← readStatus cs 44
    if pid = childPid then
      let _ ← onMemory (listRemove e)
      onMemory (S.semaDown (cs + 52))
      let exitCode ← readStatus cs 48
      releaseChild S cs
      return exitCode
    else
    let next ← onMemory (listNext e)
    waitLoop S pcb childPid fuel next

/-- `process_wait`. -/
def processWait (S : Sync) (fuel pcb childPid : ℕ) : Prog Waits ℕ :=
  waitLoop S pcb childPid fuel (listHead (children pcb))

/-! ### What the call is to do -/

/-- The memory holds the list of the children `l`, and no element lies in the rest of a status. -/
structure Children (m : Memory) (pcb : ℕ) (l : List ℕ) : Prop where
  isList : IsList m (children pcb) l
  apart : ∀ c ∈ l, ∀ x ∈ cells (children pcb) l, x ≤ c ∨ c + 72 ≤ x

/-- What goes on while the parent waits for the child `c` leaves the list of the other children
alone, and the child, when it dies, puts its exit code into its status. -/
structure Sync.Waits (S : Sync) (pcb c : ℕ) (l : List ℕ) (code : ℕ) : Prop where
  semaDown : ∀ m, IsList m (children pcb) l → Returns (S.semaDown (c + 52)) m fun _ m' =>
    IsList m' (children pcb) l ∧ fieldAt m' c 48 = code
  lockAcquire : ∀ m, IsList m (children pcb) l → Returns (S.lockAcquire (c + 8)) m fun _ m' =>
    IsList m' (children pcb) l
  lockRelease : ∀ m, IsList m (children pcb) l → Returns (S.lockRelease (c + 8)) m fun _ m' =>
    IsList m' (children pcb) l

section Spec

variable (S : Sync) (fuel pcb : ℕ) (l : List ℕ) (code : ℕ → ℕ) (childPid : ℕ) (W : Waits)

/-- The first child with the pid is removed and its exit code returned; without one, -1 is returned
at once. -/
def Reports : Prop :=
  (∀ l₁ c l₂, l = l₁ ++ c :: l₂ → (∀ x ∈ l₁, pidAt W.mem x ≠ childPid) →
    pidAt W.mem c = childPid → Returns (processWait S fuel pcb childPid) W fun r W' =>
      r = code c ∧ IsList W'.mem (children pcb) (l₁ ++ l₂)) ∧
  ((∀ c ∈ l, pidAt W.mem c ≠ childPid) → Returns (processWait S fuel pcb childPid) W fun r W' =>
    r = 2 ^ 32 - 1 ∧ W'.mem = W.mem)

/-- Only children are read as a status. -/
def ReadsChildren : Prop :=
  Ensures (processWait S fuel pcb childPid) W fun _ W' =>
    ∃ cs, W'.statuses = W.statuses ++ cs ∧ ∀ c ∈ cs, c ∈ l

end Spec

variable {S : Sync} {fuel pcb childPid c : ℕ} {l l₁ l₂ xs : List ℕ} {code : ℕ → ℕ} {m : Memory}
variable {W : Waits}

theorem onMemory_seq {α β : Type} {x : Prog Memory α} {f : α → Prog Waits β}
    {P : α → Memory → Prop} {Q : β → Waits → Prop} (hx : Returns x W.mem P)
    (hf : ∀ a m', P a m' → Returns (f a) { W with mem := m' } Q) :
    Returns (onMemory x >>= f) W Q := by
  obtain ⟨a, m', hrun, hP⟩ := hx
  have hreturns : Returns (onMemory x) W fun b W' => b = a ∧ W' = { W with mem := m' } := by
    refine ⟨a, { W with mem := m' }, ?_, rfl, rfl⟩
    show (x.run W.mem).map _ = _
    rw [hrun]
    rfl
  refine hreturns.seq ?_
  rintro b W' ⟨rfl, rfl⟩
  exact hf b m' hP

theorem ensures_onMemory_false {α : Type} {x : Prog Memory α} (hx : Ensures x W.mem fun _ _ => False) :
    Ensures (onMemory x) W fun _ _ => False := by
  intro a W' hrun
  obtain ⟨r, hr, -⟩ := Option.map_eq_some_iff.1 hrun
  exact hx r.1 r.2 hr

/-- A field is read. -/
theorem returns_readStatus {α : Type} {off : ℕ} {f : ℕ → Prog Waits α} {Q : α → Waits → Prop}
    (hc : c ≠ 0) (h : Returns (f (fieldAt W.mem c off)) { W with statuses := W.statuses ++ [c] } Q) :
    Returns (readStatus c off >>= f) W Q := by
  unfold readStatus
  rw [bind_assoc, returns_modify_bind]
  refine onMemory_seq (P := fun a m' => a = fieldAt W.mem c off ∧ m' = W.mem) ?_ ?_
  · rw [returns_readField_last hc]
    exact ⟨rfl, rfl⟩
  · rintro a m' ⟨rfl, rfl⟩
    exact h

/-! ### The head -/

/-- `list_next` of the head. -/
theorem listNext_head (h : IsList m pcb l) :
    Returns (listNext (listHead pcb)) m fun next m' => next = cursor pcb l ∧ m' = m := by
  obtain ⟨b, post, hb, hbetween⟩ := h.between_front
  obtain ⟨post', hpost⟩ := exists_cursor pcb l
  obtain ⟨rfl, -⟩ := List.cons.inj (hb.symm.trans hpost)
  have hhead0 : listHead pcb ≠ 0 := h.ne_zero hbetween.left_mem
  have hprev : fieldAt m (listHead pcb) 0 = 0 := h.first
  have hnext : fieldAt m (listHead pcb) 4 = cursor pcb l := hbetween.links.1
  have hcursor : cursor pcb l ≠ 0 := h.ne_zero hbetween.right_mem
  have hhead : Returns (isHead (listHead pcb)) m fun head m' => head = true ∧ m' = m := by
    unfold isHead
    rw [if_neg hhead0, returns_readField hhead0, returns_readField hhead0, returns_pure, hprev,
      hnext]
    exact ⟨by simp [hcursor], rfl⟩
  have hinterior : Returns (isInterior (listHead pcb)) m fun _ m' => m' = m := by
    unfold isInterior
    rw [if_neg hhead0, returns_readField hhead0, returns_readField hhead0, returns_pure]
  unfold listNext
  refine hhead.seq ?_
  rintro head m' ⟨rfl, rfl⟩
  refine hinterior.seq ?_
  rintro interior m' rfl
  rw [if_neg (by simp), returns_readField_last hhead0]
  exact ⟨hnext, rfl⟩

/-- `list_remove` of the head fails its assertion. -/
theorem listRemove_head (h : IsList m pcb l) :
    Ensures (listRemove (listHead pcb)) m fun _ _ => False := by
  have hhead0 : listHead pcb ≠ 0 := h.ne_zero (mem_cells.2 (.inl rfl))
  have hprev : fieldAt m (listHead pcb) 0 = 0 := h.first
  have hinterior : Returns (isInterior (listHead pcb)) m fun interior _ => interior = false := by
    unfold isInterior
    rw [if_neg hhead0, returns_readField hhead0, returns_readField hhead0, returns_pure, hprev]
    rfl
  unfold listRemove
  refine Ensures.seq (Returns.ensures hinterior) ?_
  rintro interior m' rfl
  rw [if_pos rfl]
  exact ensures_halt

/-- The word of the `struct process` that is read as a pid. -/
theorem processWait_starts {Q : ℕ → Waits → Prop} (h : IsList W.mem (children pcb) l)
    (hword : pidAt W.mem (children pcb) ≠ childPid)
    (hrest : Returns (waitLoop S pcb childPid fuel (cursor (children pcb) l))
      { W with statuses := W.statuses ++ [children pcb] } Q) :
    Returns (processWait S (fuel + 1) pcb childPid) W Q := by
  have hhead0 : children pcb ≠ 0 := h.ne_zero (mem_cells.2 (.inl rfl))
  have hne : children pcb ≠ listTail (children pcb) := by
    unfold listTail
    omega
  unfold processWait waitLoop listHead
  rw [if_neg hne]
  refine returns_readStatus hhead0 ?_
  rw [if_neg (show fieldAt W.mem _ 44 ≠ _ from hword)]
  refine onMemory_seq (listNext_head h) ?_
  rintro next m' ⟨rfl, rfl⟩
  exact hrest

/-- With the pid where the head's would be, the call does not return. -/
theorem processWait_panics (h : IsList W.mem (children pcb) l)
    (hword : pidAt W.mem (children pcb) = childPid) :
    Ensures (processWait S fuel pcb childPid) W fun _ _ => False := by
  have hhead0 : children pcb ≠ 0 := h.ne_zero (mem_cells.2 (.inl rfl))
  have hne : children pcb ≠ listTail (children pcb) := by
    unfold listTail
    omega
  unfold processWait
  cases fuel with
  | zero => exact ensures_halt
  | succ fuel =>
    unfold waitLoop listHead
    rw [if_neg hne]
    have hread : Returns (readStatus (children pcb) 44) W fun pid W' =>
        pid = childPid ∧ W'.mem = W.mem := by
      rw [← bind_pure (readStatus _ _)]
      exact returns_readStatus hhead0 (returns_pure.2 ⟨hword, rfl⟩)
    refine Ensures.seq (Returns.ensures hread) ?_
    rintro pid W' ⟨rfl, hmem⟩
    rw [if_pos rfl]
    refine Ensures.seq (P := fun _ _ => False) ?_ fun _ _ hfalse => hfalse.elim
    exact ensures_onMemory_false (listRemove_head (hmem ▸ h))

/-! ### The children -/

/-- The loop goes past children with other pids. -/
theorem waitLoop_skips {Q : ℕ → Waits → Prop} (h : IsList W.mem (children pcb) (xs ++ l₁ ++ l₂))
    (hother : ∀ c ∈ l₁, pidAt W.mem c ≠ childPid)
    (hrest : Returns (waitLoop S pcb childPid fuel (cursor (children pcb) l₂))
      { W with statuses := W.statuses ++ l₁ } Q) :
    Returns (waitLoop S pcb childPid (l₁.length + fuel) (cursor (children pcb) (l₁ ++ l₂))) W Q := by
  induction l₁ generalizing xs W with
  | nil =>
    rw [List.append_nil] at hrest
    rwa [List.length_nil, Nat.zero_add, List.nil_append]
  | cons c l₁ ih =>
    have hc : c ≠ 0 := h.ne_zero (mem_cells.2 (.inr (.inl (by simp))))
    have hat : IsList W.mem (children pcb) (xs ++ c :: (l₁ ++ l₂)) := by simpa using h
    have hne : c ≠ listTail (children pcb) := cursor_ne_end hat (List.cons_ne_nil c _)
    have hpid : fieldAt W.mem c 44 ≠ childPid := hother c List.mem_cons_self
    rw [List.length_cons, Nat.succ_add, List.cons_append]
    unfold waitLoop cursor
    rw [if_neg hne]
    refine returns_readStatus hc ?_
    rw [if_neg hpid]
    refine onMemory_seq (listNext_returns hat) ?_
    rintro next m' ⟨rfl, rfl⟩
    have hlist : IsList W.mem (children pcb) ((xs ++ [c]) ++ l₁ ++ l₂) := by simpa using h
    refine ih hlist (fun x hx => hother x (List.mem_cons_of_mem c hx)) ?_
    rwa [List.append_cons] at hrest

/-- `release_child` of a child that has been removed. -/
theorem releaseChild_returns {k : ℕ} (hS : S.Waits pcb c l k) (hc : c ≠ 0)
    (h : IsList W.mem (children pcb) l)
    (hapart : ∀ x ∈ cells (children pcb) l, x ≤ c ∨ c + 72 ≤ x) :
    Returns (releaseChild S c) W fun _ W' =>
      IsList W'.mem (children pcb) l ∧ ∃ cs, W'.statuses = W.statuses ++ cs := by
  unfold releaseChild
  refine onMemory_seq (hS.lockAcquire W.mem h) fun _ m₁ h₁ => ?_
  refine returns_readStatus hc ?_
  refine onMemory_seq (P := fun _ m' => IsList m' (children pcb) l) ?_ fun _ m₂ h₂ => ?_
  · rw [returns_writeField_last hc]
    refine h₁.congr fun x hx p hlo hhi => setFieldAt_of_apart ?_
    have hxc := hapart x hx
    omega
  refine onMemory_seq (hS.lockRelease m₂ h₂) fun _ m₃ h₃ => ?_
  split_ifs
  · rw [returns_modify]
    exact ⟨h₃, [c], rfl⟩
  · rw [returns_pure]
    exact ⟨h₃, [c], rfl⟩

/-- The child at which the loop stops. -/
theorem waitLoop_finds {k : ℕ} (h : Children W.mem pcb (l₁ ++ c :: l₂))
    (hpid : pidAt W.mem c = childPid) (hS : S.Waits pcb c (l₁ ++ l₂) k) :
    Returns (waitLoop S pcb childPid (fuel + 1) (cursor (children pcb) (c :: l₂))) W fun r W' =>
      r = k ∧ IsList W'.mem (children pcb) (l₁ ++ l₂) ∧ ∃ cs, W'.statuses = W.statuses ++ cs := by
  have hc : c ≠ 0 := h.isList.ne_zero (mem_cells.2 (.inr (.inl (by simp))))
  have hne : c ≠ listTail (children pcb) := cursor_ne_end h.isList (List.cons_ne_nil c l₂)
  have hpid : fieldAt W.mem c 44 = childPid := hpid
  have hapart : ∀ x ∈ cells (children pcb) (l₁ ++ l₂), x ≤ c ∨ c + 72 ≤ x := fun x hx =>
    h.apart c (by simp) x ((cells_perm c l₁ l₂).mem_iff.2 (List.mem_cons_of_mem c hx))
  unfold waitLoop cursor
  rw [if_neg hne]
  refine returns_readStatus hc ?_
  rw [if_pos hpid]
  refine onMemory_seq (listRemove_returns h.isList) fun _ m₁ h₁ => ?_
  refine onMemory_seq (hS.semaDown m₁ h₁.1) fun _ m₂ h₂ => ?_
  refine returns_readStatus hc ?_
  refine (releaseChild_returns hS hc h₂.1 hapart).seq fun _ W₃ h₃ => ?_
  obtain ⟨hlist, cs, hcs⟩ := h₃
  rw [returns_pure]
  refine ⟨h₂.2, hlist, [c] ++ [c] ++ cs, ?_⟩
  rw [hcs, ← List.append_assoc, ← List.append_assoc]

/-! ### The call -/

/-- A child is found. -/
theorem processWait_finds {k : ℕ} (h : Children W.mem pcb (l₁ ++ c :: l₂))
    (hword : pidAt W.mem (children pcb) ≠ childPid) (hother : ∀ x ∈ l₁, pidAt W.mem x ≠ childPid)
    (hpid : pidAt W.mem c = childPid) (hS : S.Waits pcb c (l₁ ++ l₂) k)
    (hfuel : l₁.length + 2 ≤ fuel) :
    Returns (processWait S fuel pcb childPid) W fun r W' =>
      (r = k ∧ IsList W'.mem (children pcb) (l₁ ++ l₂)) ∧
        ∃ cs, W'.statuses = W.statuses ++ children pcb :: cs := by
  obtain ⟨turns, rfl⟩ : ∃ turns, fuel = l₁.length + (turns + 1) + 1 := ⟨fuel - l₁.length - 2, by omega⟩
  have hlist₀ : IsList W.mem (children pcb) ([] ++ l₁ ++ c :: l₂) := h.isList
  refine processWait_starts h.isList hword (waitLoop_skips hlist₀ hother ?_)
  refine Returns.mono (waitLoop_finds ⟨h.isList, h.apart⟩ hpid hS) fun r W' hr => ?_
  obtain ⟨hk, hlist, cs, hcs⟩ := hr
  refine ⟨⟨hk, hlist⟩, l₁ ++ cs, ?_⟩
  rw [hcs]
  simp

/-- No child is found. -/
theorem processWait_not_finds (h : IsList W.mem (children pcb) l)
    (hword : pidAt W.mem (children pcb) ≠ childPid) (hother : ∀ x ∈ l, pidAt W.mem x ≠ childPid)
    (hfuel : l.length + 2 ≤ fuel) :
    Returns (processWait S fuel pcb childPid) W fun r W' =>
      (r = 2 ^ 32 - 1 ∧ W'.mem = W.mem) ∧ ∃ cs, W'.statuses = W.statuses ++ children pcb :: cs := by
  obtain ⟨turns, rfl⟩ : ∃ turns, fuel = l.length + (turns + 1) + 1 := ⟨fuel - l.length - 2, by omega⟩
  have hlist : IsList W.mem (children pcb) ([] ++ l ++ []) := by simpa using h
  refine processWait_starts h hword ?_
  have hcursor : cursor (children pcb) l = cursor (children pcb) (l ++ []) := by
    rw [List.append_nil]
  rw [hcursor]
  refine waitLoop_skips hlist hother ?_
  unfold waitLoop cursor
  rw [if_pos rfl, returns_pure]
  exact ⟨⟨rfl, rfl⟩, l, by simp⟩

/-- The first child with a pid, if there is one. -/
theorem first_or_none (m : Memory) (childPid : ℕ) (l : List ℕ) :
    (∀ x ∈ l, pidAt m x ≠ childPid) ∨
      ∃ l₁ c l₂, l = l₁ ++ c :: l₂ ∧ (∀ x ∈ l₁, pidAt m x ≠ childPid) ∧ pidAt m c = childPid := by
  induction l with
  | nil => exact .inl nofun
  | cons x l ih =>
    by_cases hx : pidAt m x = childPid
    · exact .inr ⟨[], x, l, rfl, nofun, hx⟩
    · obtain hnone | ⟨l₁, c, l₂, rfl, hother, hc⟩ := ih
      · exact .inl (List.forall_mem_cons.2 ⟨hx, hnone⟩)
      · exact .inr ⟨x :: l₁, c, l₂, rfl, List.forall_mem_cons.2 ⟨hx, hother⟩, hc⟩

/-- Every call that is right about the children returns. -/
theorem Reports.returns (h : Reports S fuel pcb l code childPid W) :
    Returns (processWait S fuel pcb childPid) W fun _ _ => True := by
  obtain hnone | ⟨l₁, c, l₂, hl, hother, hc⟩ := first_or_none W.mem childPid l
  · exact (h.2 hnone).mono fun _ _ _ => trivial
  · exact (h.1 l₁ c l₂ hl hother hc).mono fun _ _ _ => trivial

theorem processWait_reports (h : Children W.mem pcb l)
    (hS : ∀ l₁ c l₂, l = l₁ ++ c :: l₂ → S.Waits pcb c (l₁ ++ l₂) (code c))
    (hfuel : l.length + 2 ≤ fuel) (hword : pidAt W.mem (children pcb) ≠ childPid) :
    Reports S fuel pcb l code childPid W := by
  constructor
  · rintro l₁ c l₂ rfl hother hpid
    have hlen : l₁.length + 2 ≤ fuel := by
      rw [List.length_append] at hfuel
      omega
    exact (processWait_finds h hword hother hpid (hS l₁ c l₂ rfl) hlen).mono fun r W' hr => hr.1
  · intro hother
    exact (processWait_not_finds h.isList hword hother hfuel).mono fun r W' hr => hr.1

/-- The head is read. -/
theorem processWait_reads_head (h : Children W.mem pcb l)
    (hS : ∀ l₁ c l₂, l = l₁ ++ c :: l₂ → S.Waits pcb c (l₁ ++ l₂) (code c))
    (hfuel : l.length + 2 ≤ fuel) (hword : pidAt W.mem (children pcb) ≠ childPid) :
    Returns (processWait S fuel pcb childPid) W fun _ W' =>
      ∃ cs, W'.statuses = W.statuses ++ children pcb :: cs := by
  obtain hnone | ⟨l₁, c, l₂, rfl, hother, hpid⟩ := first_or_none W.mem childPid l
  · exact (processWait_not_finds h.isList hword hnone hfuel).mono fun r W' hr => hr.2
  · have hlen : l₁.length + 2 ≤ fuel := by
      rw [List.length_append] at hfuel
      omega
    exact (processWait_finds h hword hother hpid (hS l₁ c l₂ rfl) hlen).mono fun r W' hr => hr.2

/-- The head is no child. -/
theorem head_not_mem (h : IsList m pcb l) : listHead pcb ∉ l := fun hmem => by
  have hpairs := (List.pairwise_cons.1 h.apart).1
  exact (hpairs (listHead pcb) (List.mem_append_left _ hmem)).ne rfl

/-- **`process_wait`** never leaves the head of the list alone, and is right about the children
exactly if the word that it reads there is not the pid that it is asked for. -/
theorem processWait_never (h : Children W.mem pcb l)
    (hS : ∀ l₁ c l₂, l = l₁ ++ c :: l₂ → S.Waits pcb c (l₁ ++ l₂) (code c))
    (hfuel : l.length + 2 ≤ fuel) :
    ¬(Reports S fuel pcb l code childPid W ∧ ReadsChildren S fuel pcb l childPid W) ∧
      (Reports S fuel pcb l code childPid W ↔ pidAt W.mem (children pcb) ≠ childPid) := by
  have hiff : Reports S fuel pcb l code childPid W ↔ pidAt W.mem (children pcb) ≠ childPid := by
    constructor
    · intro hreports hword
      obtain ⟨r, W', hrun, -⟩ := hreports.returns
      exact processWait_panics h.isList hword r W' hrun
    · exact processWait_reports h hS hfuel
  refine ⟨?_, hiff⟩
  rintro ⟨hreports, hreads⟩
  obtain ⟨r, W', hrun, cs, hcs⟩ := processWait_reads_head h hS hfuel (hiff.1 hreports)
  obtain ⟨cs', hcs', hchild⟩ := hreads r W' hrun
  obtain rfl := List.append_cancel_left (hcs.symm.trans hcs')
  exact head_not_mem h.isList (hchild _ List.mem_cons_self)

/-- A parent at 16 with the child 256. -/
def parentOf256 : Prog Memory Unit := do
  listInit (children 16)
  listPushBack (children 16) 256

/-- The child exits with 7 while its parent waits; the lock is free. -/
def exitingChild : Sync where
  semaDown dead := do
    modify fun m => setFieldAt m dead 0 0
    writeField (dead - 4) 0 7
  lockAcquire lock := do
    modify fun m => setFieldAt m lock 4 0
    writeField lock 0 1
  lockRelease lock := do
    modify fun m => setFieldAt m lock 4 1
    writeField lock 0 0

/-- A write that is off the head and the tail. -/
theorem isList_children_set {a v : ℕ} (h : IsList m (children 16) []) (ha : 36 ≤ a) :
    IsList (setFieldAt m a 0 v) (children 16) [] := by
  refine h.congr fun x hx p hlo hhi => setFieldAt_of_apart (.inl ?_)
  simp only [mem_cells, List.not_mem_nil, false_or, children, listHead, listTail] at hx
  omega

theorem exitingChild_waits : exitingChild.Waits 16 256 [] 7 := by
  refine ⟨fun m h => ?_, fun m h => ?_, fun m h => ?_⟩
  · show Returns (modify _ >>= fun _ => writeField (256 + 52 - 4) 0 7) m _
    rw [returns_modify_bind, returns_writeField_last (by decide)]
    exact ⟨isList_children_set (isList_children_set h (by decide)) (by decide),
      @fieldAt_set_self _ 304 0 7 (by decide)⟩
  · show Returns (modify _ >>= fun _ => writeField (256 + 8) 0 1) m _
    rw [returns_modify_bind, returns_writeField_last (by decide)]
    exact isList_children_set (isList_children_set (a := 268) h (by decide)) (by decide)
  · show Returns (modify _ >>= fun _ => writeField (256 + 8) 0 0) m _
    rw [returns_modify_bind, returns_writeField_last (by decide)]
    exact isList_children_set (isList_children_set (a := 268) h (by decide)) (by decide)

theorem parentOf256_returns : Returns parentOf256 (fun _ => 0) fun _ m => Children m 16 [256] := by
  refine (listInit_returns (by decide) (by decide)).seq fun _ m hm => ?_
  refine (listPushBack_returns hm.1 (by decide) fun x hx => ?_).mono fun _ m' hm' => ⟨hm'.1, ?_⟩
  · simp only [mem_cells, List.not_mem_nil, false_or, children, listHead, listTail] at hx
    unfold Apart
    omega
  · intro c hc x hx
    simp only [mem_cells, List.mem_singleton, children, listHead, listTail] at hc hx
    omega

/-- A wait for 5 of the parent whose one child is the PCB at 256. -/
theorem processWait_never_256 :
    Returns parentOf256 (fun _ => 0) fun _ m =>
      ¬(Reports exitingChild 3 16 [256] (fun _ => 7) 5 ⟨m, [], []⟩ ∧
        ReadsChildren exitingChild 3 16 [256] 5 ⟨m, [], []⟩) ∧
      (Reports exitingChild 3 16 [256] (fun _ => 7) 5 ⟨m, [], []⟩ ↔ pidAt m (children 16) ≠ 5) := by
  refine parentOf256_returns.mono fun _ m hm => ?_
  refine processWait_never (W := ⟨m, [], []⟩) hm (fun l₁ c l₂ hl => ?_) (by decide)
  obtain ⟨rfl, rfl, rfl⟩ : l₁ = [] ∧ c = 256 ∧ l₂ = [] := by
    cases l₁ with
    | nil =>
      obtain ⟨hc, hl₂⟩ := List.cons.inj hl
      exact ⟨rfl, hc.symm, hl₂.symm⟩
    | cons x l₁ =>
      have hlen := congrArg List.length hl
      simp only [List.cons_append, List.length_cons, List.length_append, List.length_nil] at hlen
      omega
  exact exitingChild_waits

/-- A process without children that asks for 0, which is what the word at the head is. -/
theorem not_reports_and_readsChildren :
    ¬∀ (S : Sync) (fuel pcb : ℕ) (l : List ℕ) (code : ℕ → ℕ) (childPid : ℕ) (W : Waits),
      Children W.mem pcb l →
      (∀ l₁ c l₂, l = l₁ ++ c :: l₂ → S.Waits pcb c (l₁ ++ l₂) (code c)) →
      l.length + 2 ≤ fuel →
      Reports S fuel pcb l code childPid W ∧ ReadsChildren S fuel pcb l childPid W := by
  intro hall
  have hinit : Returns (listInit (children 16)) (fun _ => 0) fun _ m' =>
      IsList m' (children 16) [] ∧ SameOff (cells (children 16) []) (fun _ => 0) m' :=
    listInit_returns (by decide) (by decide)
  obtain ⟨-, m, -, hlist, hsame⟩ := hinit
  have hword : pidAt m (children 16) = 0 := by
    have hzero : pidAt (fun _ => 0) (children 16) = 0 := by decide
    refine (fieldAt_congr fun a hlo hhi => hsame a fun x hx => .inr ?_).trans hzero
    simp only [mem_cells, List.not_mem_nil, false_or, children, listHead, listTail] at hx hlo
    omega
  obtain ⟨hreports, -⟩ := hall exitingChild 2 16 [] (fun _ => 0) 0 ⟨m, [], []⟩
    ⟨hlist, fun c hc => absurd hc List.not_mem_nil⟩ (fun l₁ c l₂ hl => absurd hl (by simp)) (by decide)
  obtain ⟨r, W', hrun, -⟩ := hreports.2 fun c hc => absurd hc List.not_mem_nil
  exact processWait_panics (W := ⟨m, [], []⟩) hlist hword r W' hrun

end Userprog
end CS162

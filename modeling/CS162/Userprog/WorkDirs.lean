/-
# Working directories of processes

`projects1-3/src/userprog/process.c`, lines 77-216 (`process_execute` and `start_process`) and
337-386 (`process_exit`), and `filesys/directory.c`, lines 203-240 (`system_chdir`), as far as
`work_dir` of the `struct process` goes.

`start_process` never sets the field: `exec->parent_work_dir` is not read, so the field has what the
block held.  `process_exit` frees the `struct process` and does not close the directory.  `others` are
the references to open inodes that are not those of working directories.
-/

import CS162.Filesys.CreateTrace

namespace CS162
namespace Userprog
namespace WorkDirs

open CS162.Basis CS162.Filesys

/-- The file system, `work_dir` of the live processes by their pids, and the other references to open
inodes. -/
structure World where
  D : DirState
  procs : List (ℕ × Option DirPtr)
  others : List InodeHandle

inductive Event where
  | execute (parent child : ℕ)
  | chdir (pid : ℕ) (path : List UInt8)
  | exit (pid : ℕ)
  | other

/-- A call that returns, successfully for `execute`, or another step of the kernel, which leaves the
working directories alone. -/
inductive Step (W : World) : Event → World → Prop
  | execute {parent child : ℕ} {w junk : Option DirPtr} (hp : (parent, w) ∈ W.procs)
      (hnew : ∀ e ∈ W.procs, e.1 ≠ child) :
      Step W (.execute parent child) { W with procs := W.procs ++ [(child, junk)] }
  | chdir {pid turns : ℕ} {w w' : Option DirPtr} {path : List UInt8} {r : Bool} {D' : DirState}
      (hp : (pid, w) ∈ W.procs) (hrun : (systemChdir turns w path).run W.D = some ((r, w'), D')) :
      Step W (.chdir pid path) { W with
        D := D', procs := W.procs.map fun e => if e.1 = pid then (pid, w') else e }
  | exit {pid : ℕ} {w : Option DirPtr} (hp : (pid, w) ∈ W.procs) :
      Step W (.exit pid) { W with procs := W.procs.erase (pid, w) }
  | other {D' : DirState} {c : TableCall} {others' : List InodeHandle}
      {removals releases removals' releases' : List InodePtr}
      (hstep : TableStep ⟨W.D.fs, W.others, removals, releases⟩ c
        ⟨D'.fs, others', removals', releases'⟩)
      (hdirs : ∀ e ∈ W.procs, ∀ d, e.2 = some d → D'.dirs d = W.D.dirs d)
      (hnext : W.D.nextDir ≤ D'.nextDir) :
      Step W .other { W with D := D', others := others' }

/-- The sector of a working directory. -/
def World.sectorOf (W : World) (w : Option DirPtr) : Option BlockSector :=
  w.bind fun d => (W.D.dirs d).bind fun dir => (W.D.fs.inodes dir.inode).map Inode.sector

/-- **Every live process has its own open working directory**, and the counts of the open inodes are
those of the other references and the live processes. -/
structure Right (W : World) : Prop where
  dirs : ∀ e ∈ W.procs, (W.sectorOf e.2).isSome = true
  apart : (W.procs.map Prod.snd).Nodup
  counts : ∀ s, W.D.fs.opens s =
    W.others.countP (fun g => g.key = s) + W.procs.countP fun e => W.sectorOf e.2 = some s

/-- After the step as well, and the child of `process_execute` is where its parent is. -/
def RightStep (e : Event) (W' : World) : Prop :=
  Right W' ∧ match e with
    | .execute parent child => ∃ w w', (parent, w) ∈ W'.procs ∧ (child, w') ∈ W'.procs ∧
      W'.sectorOf w' = W'.sectorOf w
    | _ => True

/-- The step is no successful `process_execute` and no `process_exit`, and no `system_chdir` to `/` that
gets no memory for the directory. -/
def Meets (W : World) : Event → Prop
  | .execute _ _ => False
  | .chdir pid path => ∀ w x, (pid, w) ∈ W.procs → W.sectorOf w = some x →
      (W.D.fs.startsAt x path).1 = true ∨ partsOf path ≠ []
  | .exit _ => False
  | .other => True

/-- A run, with the events and what each leaves. -/
inductive Runs : World → List (Event × World) → Prop
  | nil {W : World} : Runs W []
  | cons {W W' : World} {e : Event} {rest : List (Event × World)} (h : Step W e W')
      (hrest : Runs W' rest) : Runs W ((e, W') :: rest)

/-- All steps of a run meet the condition. -/
def MeetsAll : World → List (Event × World) → Prop
  | _, [] => True
  | W, (e, W') :: rest => Meets W e ∧ MeetsAll W' rest

/-- The main process is in the root directory, and every other reference is known. -/
structure Start (W : World) : Prop where
  procs : ∃ pid d dir, W.procs = [(pid, some d)] ∧ W.D.dirs d = some dir ∧ d < W.D.nextDir ∧
    ∃ removals releases,
      TableInv ⟨W.D.fs, W.others ++ [⟨dir.inode, rootDirSector⟩], removals, releases⟩

/-! ### Lists with related elements -/

theorem forall₂_mono_mem {α β : Type} {R S : α → β → Prop} {l : List α} {l' : List β}
    (h : List.Forall₂ R l l') (hRS : ∀ a ∈ l, ∀ b, R a b → S a b) : List.Forall₂ S l l' :=
  ((List.forall₂_and_left _ _).2 ⟨fun _ ha => ha, h⟩).imp fun a b hab => hRS a hab.1 b hab.2

/-- The pair of an element. -/
theorem forall₂_split {α β : Type} {R : α → β → Prop} {l : List α} {l' : List β} {a : α}
    (h : List.Forall₂ R l l') (ha : a ∈ l) : ∃ l₁ l₂ l₁' b l₂', l = l₁ ++ a :: l₂ ∧
      l' = l₁' ++ b :: l₂' ∧ R a b ∧ List.Forall₂ R l₁ l₁' ∧ List.Forall₂ R l₂ l₂' := by
  induction h with
  | nil => cases ha
  | @cons c b l l' hcb htail ih =>
    rcases List.mem_cons.1 ha with rfl | ha
    · exact ⟨[], l, [], b, l', rfl, rfl, hcb, .nil, htail⟩
    · obtain ⟨l₁, l₂, l₁', b', l₂', rfl, rfl, hab, h₁, h₂⟩ := ih ha
      exact ⟨c :: l₁, l₂, b :: l₁', b', l₂', rfl, rfl, hab, .cons hcb h₁, h₂⟩

/-- What holds of the pairs of two lists is counted alike. -/
theorem countP_forall₂ {α β : Type} {R : α → β → Prop} {p : α → Bool} {q : β → Bool} {l : List α}
    {l' : List β} (h : List.Forall₂ R l l') (hR : ∀ a b, R a b → p a = q b) :
    l.countP p = l'.countP q := by
  induction h with
  | nil => rfl
  | cons hab _ ih => rw [List.countP_cons, List.countP_cons, ih, hR _ _ hab]

/-! ### The references of working directories -/

section Ledger

variable {W W' : World} {refs : List InodeHandle} {D D' : DirState} {e : ℕ × Option DirPtr}
  {g : InodeHandle} {T : Table} {d w : DirPtr} {x : BlockSector} {pid : ℕ}

/-- A process holds a reference through its working directory. -/
def Holds (D : DirState) (e : ℕ × Option DirPtr) (g : InodeHandle) : Prop :=
  ∃ d dir, e.2 = some d ∧ D.dirs d = some dir ∧ dir.inode = g.ptr ∧ d < D.nextDir

/-- Each live process holds one reference, and there are no others but `others`. -/
structure Ledger (W : World) (refs : List InodeHandle) : Prop where
  holds : List.Forall₂ (Holds W.D) W.procs refs
  pids : (W.procs.map Prod.fst).Nodup
  apart : (W.procs.map Prod.snd).Nodup
  table : ∃ removals releases, TableInv ⟨W.D.fs, W.others ++ refs, removals, releases⟩

theorem Start.ledger (h : Start W) : ∃ refs, Ledger W refs := by
  obtain ⟨pid, d, dir, hprocs, hdir, hlt, removals, releases, htable⟩ := h.procs
  refine ⟨[⟨dir.inode, rootDirSector⟩], ?_, ?_, ?_, removals, releases, htable⟩
  · rw [hprocs]
    exact .cons ⟨d, dir, rfl, hdir, rfl, hlt⟩ .nil
  · rw [hprocs]
    exact List.nodup_singleton pid
  · rw [hprocs]
    exact List.nodup_singleton (some d)

/-- The sector of a reference is that of the working directory. -/
theorem Holds.sectorOf (h : Holds W.D e g) {i : Inode} (hi : W.D.fs.inodes g.ptr = some i)
    (hkey : i.sector = g.key) : W.sectorOf e.2 = some g.key := by
  obtain ⟨d, dir, hd, hdir, hptr, -⟩ := h
  unfold World.sectorOf
  rw [hd, Option.bind_some, hdir, Option.bind_some, hptr, hi, Option.map_some, hkey]

theorem Ledger.located (h : Ledger W refs) :
    List.Forall₂ (fun e g => W.sectorOf e.2 = some g.key) W.procs refs := by
  obtain ⟨removals, releases, htable⟩ := h.table
  have hinode : ∀ g ∈ refs, ∃ i, W.D.fs.inodes g.ptr = some i ∧ i.sector = g.key := fun g hg =>
    (htable.inode_of_handle (List.mem_append_right W.others hg)).2
  have hholds := h.holds
  generalize W.procs = procs at hholds
  clear h htable
  induction hholds with
  | nil => exact .nil
  | @cons e g procs refs hhead _ ih =>
    obtain ⟨i, hi, hkey⟩ := hinode g List.mem_cons_self
    exact .cons (hhead.sectorOf hi hkey) (ih fun g hg => hinode g (List.mem_cons_of_mem _ hg))

/-- **The property**, by the references. -/
theorem Ledger.right (h : Ledger W refs) : Right W where
  dirs e he := by
    obtain ⟨-, -, -, g, -, -, -, hsector, -⟩ := forall₂_split h.located he
    rw [hsector]
    rfl
  apart := h.apart
  counts s := by
    obtain ⟨removals, releases, htable⟩ := h.table
    have hopens := htable.opens s
    have hcount : W.procs.countP (fun e => W.sectorOf e.2 = some s) =
        refs.countP fun g => g.key = s := by
      refine countP_forall₂ h.located fun e g heg => ?_
      simp only [heg, Option.some.injEq]
    dsimp only at hopens
    rw [hopens, List.countP_append, hcount, Nat.cast_add]

end Ledger

/-! ### `system_chdir` -/

section Chdir

variable {T : Table} {D₀ D D' : DirState} {s x : BlockSector} {k : ℕ} {d w : DirPtr} {refs : List InodeHandle}

/-- **The loop of `system_chdir`** fails with nothing more open, or comes to a directory and closes the
working directory, by induction on the turns. -/
theorem chdirFrom_keeps (h : At T D₀ s k d D) (turns : ℕ) (name path : List UInt8) :
    Ensures (chdirFrom (some w) turns name path (some d)) D fun r D' =>
      (r = (false, some w) ∧ ∃ k', Going T D₀ [] k' D') ∨
      ∃ d' s' k' D₁, r = (true, some d') ∧ At T D₀ s' k' d' D₁ ∧
        (dirClose (some w)).run D₁ = some ((), D') := by
  induction turns generalizing name path s k d D with
  | zero => exact ensures_halt
  | succ turns ih =>
    unfold chdirFrom
    rcases getNextPart name path with ⟨found, name', rest⟩
    cases found with
    | false =>
      intro r D' hrun
      obtain ⟨_, D₁, hclose, hrun⟩ := run_bind_cases hrun
      cases hrun
      exact .inr ⟨d, s, k, D, rfl, h, hclose⟩
    | true =>
      dsimp only
      cases hentry : entryAt T.fs.store s (cString name') with
      | none =>
        intro r D' hrun
        rw [StateT.run_bind, h.chdirPart_stuck hentry] at hrun
        cases hrun
      | some found =>
        cases found with
        | none =>
          refine Ensures.seq (h.chdirPart_none hentry).ensures fun r D₁ h₁ => ?_
          obtain ⟨rfl, hgoing⟩ := h₁
          exact ensures_pure (.inl ⟨rfl, hgoing⟩)
        | some t =>
          refine Ensures.seq (h.chdirPart hentry).ensures fun r D₁ h₁ => ?_
          rcases h₁ with ⟨-, d', rfl, hat⟩ | ⟨-, rfl, hgoing⟩
          · exact ih hat name' rest
          · exact ensures_pure (.inl ⟨rfl, hgoing⟩)

/-- Without a directory to start in, a path without components leaves none. -/
theorem chdirFrom_null {turns : ℕ} {name path : List UInt8} :
    Ensures (chdirFrom (some w) turns name path none) D fun r _ =>
      r = (true, none) ∧ partsOf path = [] := by
  cases turns with
  | zero => exact ensures_halt
  | succ turns =>
    unfold chdirFrom
    rcases dropWhile_cases path with ⟨-, hparts⟩ | ⟨word, rest, hsrc, hne, -, -⟩
    · rw [getNextPart_end hparts]
      intro r D' hrun
      obtain ⟨_, D₁, -, hrun⟩ := run_bind_cases hrun
      cases hrun
      exact ⟨rfl, hparts⟩
    · have hfound : (getNextPart name path).1 = true := by
        unfold getNextPart
        rw [hsrc]
        dsimp only
        rw [if_neg (by simp [hne])]
        split_ifs
        · rfl
        · rfl
      have hnext : getNextPart name path =
          (true, (getNextPart name path).2.1, (getNextPart name path).2.2) := Prod.ext hfound rfl
      rw [hnext]
      intro r D' hrun
      cases hrun

/-- **What `system_chdir` leaves**: what was there; or another directory, with the old one closed; or,
where it gets no memory for the directory to start in, a null pointer. -/
theorem systemChdir_keeps (htable : TableInv T) (hfs : T.fs = D.fs) {dir : Dir}
    (hdir : D.dirs w = some dir) (hhandle : ⟨dir.inode, x⟩ ∈ T.handles) (hnext : w < D.nextDir)
    (turns : ℕ) (path : List UInt8) : Ensures (systemChdir turns (some w) path) D fun r D' =>
      ((D.fs.startsAt x path).1 = true ∧ ((r = (false, some w) ∧ ∃ k, Going T D [] k D') ∨
        ∃ d q, r = (true, some d) ∧ HandlesAre ((q :: T.handles).erase ⟨dir.inode, x⟩) D' ∧
          (D'.dirs d).map Dir.inode = some q.ptr ∧ D.nextDir ≤ d ∧ d < D'.nextDir ∧
          ∀ e < D.nextDir, e ≠ w → D'.dirs e = D.dirs e)) ∨
      (r = (true, none) ∧ (D.fs.startsAt x path).1 = false ∧ partsOf path = []) := by
  have hin : InDir T x w D := ⟨⟨dir, hdir, hhandle⟩, hnext⟩
  obtain ⟨name, start, D₁, hstart, hcases⟩ := hin.starts htable hfs turns path
  intro r D' hrun
  rw [hstart] at hrun
  rcases hcases with ⟨hmem, d, rfl, hat⟩ | ⟨hmem, rfl⟩
  · refine .inl ⟨hmem, ?_⟩
    rcases chdirFrom_keeps hat turns name path r D' hrun with hkept | ⟨d', s', k', D₂, rfl, hat', hclose⟩
    · exact .inl hkept
    · obtain ⟨q, hgoing, hd'⟩ := hat'.going
      have hdir₂ : D₂.dirs w = some dir := (hgoing.dirs w hnext).trans hdir
      obtain ⟨dir', hdir', hptr⟩ := hd'.dir
      have hne : d' ≠ w := Nat.ne_of_gt (Nat.lt_of_lt_of_le hnext hd'.new)
      have hmem : (⟨dir.inode, x⟩ : InodeHandle) ∈ [⟨q, s'⟩] ++ T.handles :=
        List.mem_append_right _ hhandle
      obtain ⟨hhandles, hdirs, hnextDir⟩ := hgoing.handles.dirClose hmem hdir₂ rfl _ _ hclose
      refine .inr ⟨d', ⟨q, s'⟩, rfl, hhandles, ?_, hd'.new, ?_, fun e he hew => ?_⟩
      · rw [hdirs, Function.update_of_ne hne, hdir', Option.map_some, hptr]
      · rw [hnextDir]
        exact hd'.next
      · rw [hdirs, Function.update_of_ne hew]
        exact hgoing.dirs e he
  · obtain ⟨rfl, hparts⟩ := chdirFrom_null r D' hrun
    exact .inr ⟨rfl, hmem, hparts⟩

end Chdir

/-! ### Runs -/

section Runs

variable {W W' : World} {refs : List InodeHandle} {e : Event}

/-- The entry of a pid is replaced. -/
theorem map_replace {pid : ℕ} {w w' : Option DirPtr} {l₁ l₂ : List (ℕ × Option DirPtr)}
    (hpids : ((l₁ ++ (pid, w) :: l₂).map Prod.fst).Nodup) :
    (l₁ ++ (pid, w) :: l₂).map (fun e => if e.1 = pid then (pid, w') else e) =
      l₁ ++ (pid, w') :: l₂ := by
  rw [List.map_append, List.map_cons, List.nodup_middle, List.nodup_cons, ← List.map_append,
    List.mem_map] at hpids
  have hother : ∀ e ∈ l₁ ++ l₂, (if e.1 = pid then (pid, w') else e) = e := fun e he =>
    if_neg fun heq => hpids.1 ⟨e, he, heq⟩
  rw [List.map_append, List.map_cons, if_pos rfl,
    List.map_congr_left fun e he => hother e (List.mem_append_left l₂ he),
    List.map_congr_left fun e he => hother e (List.mem_append_right l₁ he), List.map_id'', List.map_id'']
  · exact fun _ => rfl
  · exact fun _ => rfl

theorem table_of_handles {hs : List InodeHandle} {D : DirState} (h : HandlesAre hs D) :
    ∃ removals releases, TableInv ⟨D.fs, hs, removals, releases⟩ := by
  obtain ⟨⟨fs, handles, removals, releases⟩, hinv, rfl, rfl⟩ := h
  exact ⟨removals, releases, hinv⟩

/-- One of the references is exchanged. -/
theorem perm_exchange (q g : InodeHandle) (others r₁ r₂ : List InodeHandle) :
    ((q :: (others ++ (r₁ ++ g :: r₂))).erase g).Perm (others ++ (r₁ ++ q :: r₂)) := by
  have hfront : (q :: (others ++ (r₁ ++ g :: r₂))).Perm (g :: (others ++ (r₁ ++ q :: r₂))) := by
    have hg : (others ++ (r₁ ++ g :: r₂)).Perm (g :: (others ++ (r₁ ++ r₂))) := by
      rw [← List.append_assoc, ← List.append_assoc]
      exact List.perm_middle
    have hq : (others ++ (r₁ ++ q :: r₂)).Perm (q :: (others ++ (r₁ ++ r₂))) := by
      rw [← List.append_assoc, ← List.append_assoc]
      exact List.perm_middle
    exact (hg.cons q).trans ((List.Perm.swap g q _).trans (hq.symm.cons g))
  have herase := hfront.erase g
  rwa [List.erase_cons_head] at herase

/-- A call of the rest of the kernel, with the references of working directories besides. -/
theorem tableStep_append {fs fs' : FsState} {others others' : List InodeHandle}
    {removals releases removals' releases' : List InodePtr} {c : TableCall} (refs : List InodeHandle)
    (h : TableStep ⟨fs, others, removals, releases⟩ c ⟨fs', others', removals', releases'⟩)
    (removals₀ releases₀ : List InodePtr) : ∃ removals₀' releases₀',
      TableStep ⟨fs, others ++ refs, removals₀, releases₀⟩ c
        ⟨fs', others' ++ refs, removals₀', releases₀'⟩ := by
  cases h with
  | opened hrun => exact ⟨_, _, .opened hrun⟩
  | failed hrun => exact ⟨_, _, .failed hrun⟩
  | reopened hmem hrun => exact ⟨_, _, .reopened (List.mem_append_left refs hmem) hrun⟩
  | removed hmem hrun => exact ⟨_, _, .removed (List.mem_append_left refs hmem) hrun⟩
  | closed hmem hrun =>
    have hclosed := TableStep.closed (T := ⟨fs, others ++ refs, removals₀, releases₀⟩)
      (List.mem_append_left refs hmem) hrun
    dsimp only at hclosed hmem ⊢
    rw [List.erase_append_left refs hmem] at hclosed
    exact ⟨_, _, hclosed⟩
  | other hkept => exact ⟨_, _, .other hkept⟩

/-- What the rest of the kernel does leaves the references. -/
theorem Ledger.other {D' : DirState} {c : TableCall} {others' : List InodeHandle}
    {removals releases removals' releases' : List InodePtr} (h : Ledger W refs)
    (hstep : TableStep ⟨W.D.fs, W.others, removals, releases⟩ c
      ⟨D'.fs, others', removals', releases'⟩)
    (hdirs : ∀ e ∈ W.procs, ∀ d, e.2 = some d → D'.dirs d = W.D.dirs d)
    (hnext : W.D.nextDir ≤ D'.nextDir) :
    Ledger { W with D := D', others := others' } refs where
  holds := forall₂_mono_mem h.holds fun e he g hg => by
    obtain ⟨d, dir, hd, hdir, hptr, hlt⟩ := hg
    exact ⟨d, dir, hd, (hdirs e he d hd).trans hdir, hptr, Nat.lt_of_lt_of_le hlt hnext⟩
  pids := h.pids
  apart := h.apart
  table := by
    obtain ⟨removals₀, releases₀, htable⟩ := h.table
    obtain ⟨removals₀', releases₀', hstep'⟩ := tableStep_append refs hstep removals₀ releases₀
    exact ⟨removals₀', releases₀', htable.step hstep'⟩

/-- The working directories were allocated. -/
theorem Ledger.dir_lt (h : Ledger W refs) {e : ℕ × Option DirPtr} (he : e ∈ W.procs) :
    ∃ d, e.2 = some d ∧ d < W.D.nextDir := by
  obtain ⟨-, -, -, g, -, -, -, hg, -⟩ := forall₂_split h.holds he
  obtain ⟨d, -, hd, -, -, hlt⟩ := hg
  exact ⟨d, hd, hlt⟩

theorem mem_of_mem_sides {α : Type} {a b : α} {l₁ l₂ : List α} (h : a ∈ l₁ ++ l₂) :
    a ∈ l₁ ++ b :: l₂ := by
  rcases List.mem_append.1 h with h₁ | h₂
  · exact List.mem_append_left _ h₁
  · exact List.mem_append_right _ (List.mem_cons_of_mem _ h₂)

/-- **`system_chdir`** exchanges the reference of its process, or leaves it; without memory for the
directory to start in, its process is left without. -/
theorem Ledger.chdir {pid turns : ℕ} {w w' : Option DirPtr} {path : List UInt8} {r : Bool}
    {D' : DirState} (h : Ledger W refs) (hp : (pid, w) ∈ W.procs)
    (hrun : (systemChdir turns w path).run W.D = some ((r, w'), D')) :
    ∃ x, W.sectorOf w = some x ∧
      (((W.D.fs.startsAt x path).1 = true ∧ ∃ refs', Ledger { W with
        D := D', procs := W.procs.map fun e => if e.1 = pid then (pid, w') else e } refs') ∨
      (w' = none ∧ (W.D.fs.startsAt x path).1 = false ∧ partsOf path = [])) := by
  obtain ⟨removals, releases, htable⟩ := h.table
  obtain ⟨l₁, l₂, r₁, g, r₂, hprocs, hrefs, hg, h₁, h₂⟩ := forall₂_split h.holds hp
  obtain ⟨d, dir, rfl, hdir, hptr, hlt⟩ := hg
  have hmemg : g ∈ W.others ++ refs := by
    rw [hrefs]
    exact List.mem_append_right _ (List.mem_append_right _ List.mem_cons_self)
  have hhandle : (⟨dir.inode, g.key⟩ : InodeHandle) ∈ W.others ++ refs := by
    rw [hptr]
    exact hmemg
  have hsector : W.sectorOf (some d) = some g.key := by
    obtain ⟨-, i, hi, hkey⟩ := htable.inode_of_handle hmemg
    have hholds : Holds W.D (pid, some d) g := ⟨d, dir, rfl, hdir, hptr, hlt⟩
    exact hholds.sectorOf hi hkey
  have hpids := h.pids
  have hapart := h.apart
  rw [hprocs] at hpids hapart
  rw [List.map_append, List.map_cons, List.nodup_middle, List.nodup_cons] at hapart
  -- no other process has this directory
  have hother : ∀ e ∈ l₁ ++ l₂, e.2 ≠ some d := fun e he heq => by
    rw [← List.map_append] at hapart
    exact hapart.1 (List.mem_map.2 ⟨e, he, heq⟩)
  refine ⟨g.key, hsector, ?_⟩
  rcases systemChdir_keeps htable rfl hdir hhandle hlt turns path _ _ hrun with
    ⟨hmem, ⟨hr, k, hgoing⟩ | ⟨d', q, hr, hhandles, hd', hnew, hlt', hkept⟩⟩ | ⟨hr, hmem, hparts⟩
  · obtain ⟨-, rfl⟩ := Prod.mk.inj hr
    refine .inl ⟨hmem, refs, ?_⟩
    rw [hprocs, map_replace hpids, ← hprocs]
    refine ⟨forall₂_mono_mem h.holds fun e _ g hg => ?_, h.pids, h.apart,
      table_of_handles hgoing.handles⟩
    obtain ⟨e', dir', he', hdir', hptr', hlt'⟩ := hg
    exact ⟨e', dir', he', (hgoing.dirs e' hlt').trans hdir', hptr',
      Nat.lt_of_lt_of_le hlt' hgoing.next⟩
  · obtain ⟨-, rfl⟩ := Prod.mk.inj hr
    refine .inl ⟨hmem, r₁ ++ q :: r₂, ?_⟩
    rw [hprocs, map_replace hpids]
    have hold : ∀ e ∈ l₁ ++ l₂, ∀ g, Holds W.D e g → Holds D' e g := fun e he g hg => by
      obtain ⟨e', dir', he', hdir', hptr', hltE⟩ := hg
      have hne : e' ≠ d := fun heq => hother e he (heq ▸ he')
      exact ⟨e', dir', he', (hkept e' hltE hne).trans hdir', hptr',
        Nat.lt_of_lt_of_le hltE (Nat.le_of_lt (Nat.lt_of_le_of_lt hnew hlt'))⟩
    have hhead : Holds D' (pid, some d') q := by
      obtain ⟨dir', hdir', hq⟩ := Option.map_eq_some_iff.1 hd'
      exact ⟨d', dir', rfl, hdir', hq, hlt'⟩
    have hfresh : some d' ∉ (l₁ ++ l₂).map Prod.snd := fun hmem => by
      obtain ⟨e, he, heq⟩ := List.mem_map.1 hmem
      obtain ⟨e', he', hltE⟩ := h.dir_lt (hprocs ▸ mem_of_mem_sides he)
      rw [heq, Option.some.injEq] at he'
      rw [← he'] at hltE
      exact absurd hltE (Nat.not_lt.2 hnew)
    obtain ⟨removals', releases', htable'⟩ := table_of_handles hhandles
    rw [hptr, hrefs] at htable'
    refine ⟨List.rel_append (forall₂_mono_mem h₁ fun e he => hold e (List.mem_append_left l₂ he))
      (.cons hhead (forall₂_mono_mem h₂ fun e he => hold e (List.mem_append_right l₁ he))), ?_, ?_,
      removals', releases', htable'.perm (perm_exchange q g W.others r₁ r₂)⟩
    · simpa using hpids
    · rw [List.map_append, List.map_cons, List.nodup_middle, List.nodup_cons, ← List.map_append]
      exact ⟨hfresh, by rw [List.map_append]; exact hapart.2⟩
  · obtain ⟨-, rfl⟩ := Prod.mk.inj hr
    exact .inr ⟨rfl, hmem, hparts⟩

/-- **A step that meets the condition** keeps the references of the working directories. -/
theorem Ledger.step (h : Ledger W refs) (hstep : Step W e W') (hmeets : Meets W e) :
    ∃ refs', Ledger W' refs' := by
  cases hstep with
  | execute hp hnew => exact hmeets.elim
  | chdir hp hrun =>
    obtain ⟨x, hx, ⟨-, hledger⟩ | ⟨-, hmem, hparts⟩⟩ := h.chdir hp hrun
    · exact hledger
    · rcases hmeets _ x hp hx with htrue | hne
      · rw [hmem] at htrue
        cases htrue
      · exact absurd hparts hne
  | exit hp => exact hmeets.elim
  | other htable hdirs hnext => exact ⟨refs, h.other htable hdirs hnext⟩

/-- A pid has one entry. -/
theorem entry_unique {pid : ℕ} {w w' : Option DirPtr} {l : List (ℕ × Option DirPtr)}
    (hpids : (l.map Prod.fst).Nodup) (h : (pid, w) ∈ l) (h' : (pid, w') ∈ l) : w = w' :=
  congrArg Prod.snd (List.inj_on_of_nodup_map hpids h h' rfl)

/-- **A step that does not meet it** leaves a process without a working directory of its own, or a
reference that no process has. -/
theorem Ledger.not_right (h : Ledger W refs) (hstep : Step W e W') (hnot : ¬Meets W e) :
    ¬Right W' := by
  have hright := h.right
  intro hright'
  cases hstep with
  | @execute parent child w junk hp hnew =>
    -- nothing was opened for the child
    obtain ⟨s, hs⟩ := Option.isSome_iff_exists.1
      (hright'.dirs (child, junk) (List.mem_append_right _ (List.mem_singleton_self _)))
    have hjunk : W.sectorOf junk = some s := hs
    have hcount' : W.D.fs.opens s = W.others.countP (fun g => g.key = s) +
        (W.procs ++ [(child, junk)]).countP fun e => W.sectorOf e.2 = some s := hright'.counts s
    rw [List.countP_append, List.countP_singleton, hright.counts s] at hcount'
    simp only [hjunk, decide_true, if_true] at hcount'
    omega
  | @chdir pid turns w w' path r D' hp hrun =>
    obtain ⟨x, hx, ⟨hmem, -⟩ | ⟨rfl, -⟩⟩ := h.chdir hp hrun
    · refine hnot fun w₀ x₀ hp₀ hx₀ => .inl ?_
      rw [entry_unique h.pids hp₀ hp, hx, Option.some.injEq] at hx₀
      rw [← hx₀]
      exact hmem
    · have hin : (pid, none) ∈ W.procs.map fun e => if e.1 = pid then (pid, none) else e :=
        List.mem_map.2 ⟨(pid, w), hp, if_pos rfl⟩
      have hdir := hright'.dirs _ hin
      cases hdir
  | @exit pid w hp =>
    -- the directory of the process stays open
    obtain ⟨s, hs⟩ := Option.isSome_iff_exists.1 (hright.dirs _ hp)
    have hcount' : W.D.fs.opens s = W.others.countP (fun g => g.key = s) +
        (W.procs.erase (pid, w)).countP fun e => W.sectorOf e.2 = some s := hright'.counts s
    have hperm := (List.perm_cons_erase hp).countP_eq fun e => decide (W.sectorOf e.2 = some s)
    rw [List.countP_cons, if_pos (decide_eq_true hs)] at hperm
    rw [hright.counts s, hperm] at hcount'
    omega
  | other htable hdirs hnext => exact hnot trivial

/-- The references after a run. -/
theorem Ledger.runs_iff {l : List (Event × World)} (hrun : Runs W l) (h : Ledger W refs) :
    (∀ s ∈ l, RightStep s.1 s.2) ↔ MeetsAll W l := by
  induction hrun generalizing refs with
  | nil => exact iff_of_true (fun s hs => absurd hs List.not_mem_nil) trivial
  | @cons W W' e rest hstep _ ih =>
    constructor
    · intro hall
      have hmeets : Meets W e := by
        by_contra hnot
        exact h.not_right hstep hnot (hall (e, W') List.mem_cons_self).1
      obtain ⟨refs', h'⟩ := h.step hstep hmeets
      exact ⟨hmeets, (ih h').1 fun s hs => hall s (List.mem_cons_of_mem _ hs)⟩
    · rintro ⟨hmeets, hmeetsRest⟩ s hs
      obtain ⟨refs', h'⟩ := h.step hstep hmeets
      rcases List.mem_cons.1 hs with rfl | hs
      · refine ⟨h'.right, ?_⟩
        cases e with
        | execute parent child => exact hmeets.elim
        | chdir pid path => trivial
        | exit pid => trivial
        | other => trivial
      · exact (ih h').2 hmeetsRest s hs

/-- **Every live process has its own open working directory** in every state of a run if and only if no
step of the run is a successful `process_execute`, a `process_exit`, or a `system_chdir` of a path
without components that gets no memory. -/
theorem workDirs_iff {l : List (Event × World)} (hstart : Start W) (hrun : Runs W l) :
    (∀ s ∈ l, RightStep s.1 s.2) ↔ MeetsAll W l := by
  obtain ⟨refs, hledger⟩ := hstart.ledger
  exact hledger.runs_iff hrun

/-- The main process, in the root directory of a disk with a file. -/
def mainProcess : World := ⟨beforeCreate, [(1, some 0)], []⟩

theorem mainProcess_start : Start mainProcess where
  procs := ⟨1, 0, _, rfl, rfl, Nat.one_pos, [], [], beforeCreate_table⟩

theorem run_chdir_root : ((systemChdir 2 (some 0) [47]).run beforeCreate).map Prod.fst =
    some (true, some 2) := by decide +kernel

/-- A `system_chdir` of the main process to the root directory. -/
theorem workDirs_iff_root : ∃ W', Runs mainProcess [(.chdir 1 [47], W')] ∧
    RightStep (.chdir 1 [47]) W' := by
  obtain ⟨⟨r, D'⟩, hrun, hr⟩ := Option.map_eq_some_iff.1 run_chdir_root
  obtain rfl : r = (true, some 2) := hr
  have hruns : Runs mainProcess [_] := .cons (.chdir List.mem_cons_self hrun) .nil
  refine ⟨_, hruns, (workDirs_iff mainProcess_start hruns).2 ⟨fun w x hw hx => .inl ?_, trivial⟩ _
    List.mem_cons_self⟩
  have hstart : mainProcess.D.fs.startsAt x [47] =
      mainProcess.D.fs.opensAt rootDirSector rootDirSector 1 := rfl
  rw [hstart]
  decide +kernel

/-- **The child of `process_execute`** has no working directory. -/
theorem not_workDirs : ¬∀ l, Runs mainProcess l → ∀ s ∈ l, RightStep s.1 s.2 := by
  intro h
  have hstep : Step mainProcess (.execute 1 2) { mainProcess with procs := [(1, some 0), (2, none)] } :=
    .execute (w := some 0) List.mem_cons_self (by decide)
  have hright := h _ (.cons hstep .nil) _ List.mem_cons_self
  have hdir := hright.1.dirs (2, none) (by decide)
  cases hdir

end Runs

end WorkDirs
end Userprog
end CS162

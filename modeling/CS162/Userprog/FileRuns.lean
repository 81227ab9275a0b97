/-
# The system calls on files in a file system of this kernel

`do_format` makes the root directory with `inode_create`, so its inode is not marked
as a directory and `traverse_path` comes no further than it.  In the runs of a
process on such a file system (`Rooted`, `Reached`) `sys_open` opens nothing but the
root, and every descriptor is a directory's.

A call stops the machine if it reads the field `file` of such a descriptor, opens a
path that it cannot find, or finds no memory for a directory.  `fileCalls_end` says
exactly when (`Meets`).
-/

import CS162.Filesys.Mount
import CS162.Userprog.FileCalls

namespace CS162
namespace Userprog

open CS162.Basis CS162.Filesys

/-! ### The state of a run -/

/-- The open directory of a descriptor. -/
def Descriptor.dir (fd : Descriptor) : Option DirPtr :=
  match fd.opened with
  | .file _ => none
  | .directory d => d

/-- The descriptors are directories, open on the root like the working directory. -/
structure Rooted (disk : BlockSector → Sector) (p : InodePtr) (P : Process) : Prop where
  dirs : DirsOpen disk p (P.kernel.workDir :: P.fds.filterMap Descriptor.dir) 0 P.kernel
  isDir : ∀ fd ∈ P.fds, ∃ d, fd.opened = .directory d

/-- How a call is to end: it returns, or it ends the process. -/
def Fine {α : Type} (disk : BlockSector → Sector) (p : InodePtr) : Except Stop α → Process → Prop
  | .ok _, P => Rooted disk p P
  | .error e, _ => e = .exit

/-- The call ends as it is to, if and only if `cond`; otherwise it does not end. -/
structure EndsIff (disk : BlockSector → Sector) (p : InodePtr) (x : ProcessCall ℤ) (P : Process)
    (cond : Prop) : Prop where
  ends : cond → Ends x P (Fine disk p)
  stuck : ¬cond → Stuck x P

section Rules

variable {disk : BlockSector → Sector} {p : InodePtr} {P : Process} {cond : Prop} {α : Type}

theorem Rooted.congr (h : Rooted disk p P) {P' : Process} (hkernel : P'.kernel = P.kernel)
    (hfds : P'.fds = P.fds) : Rooted disk p P' := by
  constructor
  · rw [hkernel, hfds]
    exact h.dirs
  · rw [hfds]
    exact h.isDir

/-- The kernel works on. -/
theorem Rooted.work (h : Rooted disk p P) {D : DirState}
    (hD : DirsOpen disk p (P.kernel.workDir :: P.fds.filterMap Descriptor.dir) 0 D)
    (hwork : D.workDir = P.kernel.workDir) : Rooted disk p { P with kernel := D } := by
  refine ⟨?_, h.isDir⟩
  show DirsOpen disk p (D.workDir :: P.fds.filterMap Descriptor.dir) 0 D
  rwa [hwork]

theorem onDirs_ends {x : DirKernel α} {Q : Except Stop α → Process → Prop}
    (h : Returns x P.kernel fun a D => Q (.ok a) { P with kernel := D }) :
    Ends (onDirs x) P Q := by
  obtain ⟨a, D, hrun, hQ⟩ := h
  refine ends_callOut ⟨a, { P with kernel := D }, ?_, hQ⟩
  show (x.run P.kernel).map _ = _
  rw [hrun]
  rfl

theorem onDirs_stuck {x : DirKernel α} (h : Ensures x P.kernel fun _ _ => False) :
    Stuck (onDirs x) P := by
  refine stuck_callOut fun a P' hrun => ?_
  obtain ⟨⟨b, D⟩, hx, -⟩ := Option.map_eq_some_iff.1 hrun
  exact h b D hx

/-- A call of the file system that returns, and what follows it. -/
theorem onDirs_seq {β : Type} {x : DirKernel α} {f : α → ProcessCall β}
    {R : α → DirState → Prop} {Q : Except Stop β → Process → Prop} (h : Returns x P.kernel R)
    (hf : ∀ a D, R a D → Ends (f a) { P with kernel := D } Q) : Ends (onDirs x >>= f) P Q := by
  have hends : Ends (onDirs x) P fun r P' =>
      ∃ a D, r = .ok a ∧ P' = { P with kernel := D } ∧ R a D :=
    onDirs_ends (h.mono fun a D hR => ⟨a, D, rfl, rfl, hR⟩)
  refine hends.seq (fun a P' hP => ?_) fun e P' hP => ?_
  · obtain ⟨b, D, hb, rfl, hR⟩ := hP
    obtain rfl := Except.ok.inj hb
    exact hf a D hR
  · obtain ⟨b, D, hb, -⟩ := hP
    cases hb

theorem onDirs_seq_stuck {β : Type} {x : DirKernel α} {f : α → ProcessCall β}
    {R : α → DirState → Prop} (h : Returns x P.kernel R)
    (hf : ∀ a D, R a D → Stuck (f a) { P with kernel := D }) : Stuck (onDirs x >>= f) P := by
  have hends : Ends (onDirs x) P fun r P' =>
      ∃ a D, r = .ok a ∧ P' = { P with kernel := D } ∧ R a D :=
    onDirs_ends (h.mono fun a D hR => ⟨a, D, rfl, rfl, hR⟩)
  refine hends.stuck (fun a P' hP => ?_) fun e P' hP => ?_
  · obtain ⟨b, D, hb, rfl, hR⟩ := hP
    obtain rfl := Except.ok.inj hb
    exact hf a D hR
  · obtain ⟨b, D, hb, -⟩ := hP
    cases hb

/-- A call that ends is one that ends under a condition that holds. -/
theorem EndsIff.of_ends {x : ProcessCall ℤ} (hcond : cond) (h : Ends x P (Fine disk p)) :
    EndsIff disk p x P cond :=
  ⟨fun _ => h, fun hno => absurd hcond hno⟩

theorem EndsIff.of_stuck {x : ProcessCall ℤ} (hcond : ¬cond) (h : Stuck x P) :
    EndsIff disk p x P cond :=
  ⟨fun hyes => absurd hyes hcond, fun _ => h⟩

/-- A call of the file system that returns, and what follows it. -/
theorem EndsIff.onDirs {x : DirKernel α} {f : α → ProcessCall ℤ} {R : α → DirState → Prop}
    (h : Returns x P.kernel R)
    (hf : ∀ a D, R a D → EndsIff disk p (f a) { P with kernel := D } cond) :
    EndsIff disk p (onDirs x >>= f) P cond :=
  ⟨fun hcond => onDirs_seq h fun a D hR => (hf a D hR).ends hcond,
    fun hcond => onDirs_seq_stuck h fun a D hR => (hf a D hR).stuck hcond⟩

theorem EndsIff.get {f : Process → ProcessCall ℤ} (h : EndsIff disk p (f P) P cond) :
    EndsIff disk p (get >>= f) P cond :=
  ⟨h.ends, h.stuck⟩

/-- **`lookup_fd`** ends the process or finds a descriptor. -/
theorem EndsIff.lookupFd {handle : ℤ} {f : Descriptor → ProcessCall ℤ}
    (hnone : P.descriptor handle = none → cond)
    (hf : ∀ fd, P.descriptor handle = some fd → fd ∈ P.fds → EndsIff disk p (f fd) P cond) :
    EndsIff disk p (lookupFd handle >>= f) P cond := by
  cases hfd : P.descriptor handle with
  | none =>
    refine EndsIff.of_ends (hnone hfd) ?_
    refine Ends.seq (P := fun r _ => r = .error .exit) ?_ (fun a _ h => by cases h)
      fun e _ h => Except.error.inj h
    unfold Userprog.lookupFd
    rw [ends_get_bind, hfd]
    exact ends_stop.2 rfl
  | some fd =>
    have hends : Ends (Userprog.lookupFd handle) P fun r P' => r = .ok fd ∧ P' = P := by
      unfold Userprog.lookupFd
      rw [ends_get_bind, hfd]
      exact ends_pure.2 ⟨rfl, rfl⟩
    have hgo := hf fd hfd (List.mem_of_find?_eq_some hfd)
    constructor
    · intro hcond
      refine hends.seq (fun a P' hP => ?_) fun e P' hP => by cases hP.1
      obtain ⟨ha, rfl⟩ := hP
      obtain rfl := Except.ok.inj ha
      exact hgo.ends hcond
    · intro hcond
      refine hends.stuck (fun a P' hP => ?_) fun e P' hP => by cases hP.1
      obtain ⟨ha, rfl⟩ := hP
      obtain rfl := Except.ok.inj ha
      exact hgo.stuck hcond

end Rules

/-! ### The calls that only end -/

section Ends

variable {disk : BlockSector → Sector} {p : InodePtr} {P : Process}

theorem putKey_ends (h : Rooted disk p P) (udst : UInt32) :
    Ends (putKey udst) P (Fine disk p) := by
  unfold putKey
  rw [ends_get_bind]
  split_ifs
  · exact ⟨.ok ⟨⟩, _, rfl, h.congr rfl rfl⟩
  · exact ends_stop.2 rfl

/-- Reading the keyboard. -/
theorem readKeys_ends (size : ℕ) : ∀ {P : Process} (udst : UInt32), Rooted disk p P →
    Ends (readKeys size udst) P (Fine disk p) := by
  induction size with
  | zero => exact fun _ h => ends_pure.2 h
  | succ size ih =>
    intro P udst h
    exact (putKey_ends h udst).seq (fun _ P' h' => ih (udst + 1) h') fun _ _ he => he

/-- Writing to the console. -/
theorem writePages_ends (h : Rooted disk p P) (turns : ℕ) :
    ∀ (usrc : UInt32) (size : ℕ), Ends (writePages none turns usrc size) P (Fine disk p) := by
  induction turns with
  | zero => exact fun _ _ => ends_pure.2 h
  | succ turns ih =>
    intro usrc size
    unfold writePages
    by_cases hsize : size = 0
    · rw [if_pos hsize]
      exact ends_pure.2 h
    rw [if_neg hsize, ends_get_bind]
    by_cases hverify : P.verify usrc = false
    · rw [if_pos hverify]
      exact ends_stop.2 rfl
    rw [if_neg hverify]
    show Ends (if pageAmount usrc size ≠ pageAmount usrc size then _ else _) P _
    rw [if_neg (fun hne => hne rfl)]
    -- the state does not change, so that what follows starts where the loop did
    refine Ends.seq (ih _ _) (fun rest P' h' => ends_pure.2 h') fun _ _ he => he

end Ends

/-! ### The calls on descriptors -/

/-- The first element that is found and the others. -/
theorem perm_eraseP_of_find? {α : Type} {f : α → Bool} {a : α} :
    ∀ {l : List α}, l.find? f = some a → l.Perm (a :: l.eraseP f)
  | [], h => by cases h
  | b :: l, h => by
    rw [List.find?_cons] at h
    cases hb : f b with
    | true =>
      rw [hb] at h
      obtain rfl := Option.some.inj h
      rw [List.eraseP_cons_of_pos hb]
    | false =>
      rw [hb] at h
      rw [List.eraseP_cons_of_neg (by rw [hb]; exact Bool.false_ne_true)]
      exact ((perm_eraseP_of_find? h).cons b).trans (List.Perm.swap a b _)

section Descriptors

variable {disk : BlockSector → Sector} {p : InodePtr} {P : Process} {t : Tree} {len : ℕ}
  {fd : Descriptor}

theorem Rooted.isDir_eq (h : Rooted disk p P) (hmem : fd ∈ P.fds) : fd.isDir = true := by
  obtain ⟨d, hd⟩ := h.isDir fd hmem
  rw [Descriptor.isDir, hd]

/-- The field `file` of a directory's descriptor. -/
theorem file_stuck (h : Rooted disk p P) (hmem : fd ∈ P.fds) {f : FilePtr → ProcessCall ℤ} :
    Stuck (fd.file >>= f) P := by
  obtain ⟨d, hd⟩ := h.isDir fd hmem
  refine Stuck.bind ?_
  unfold Descriptor.file
  rw [hd]
  exact stuck_callOut ensures_halt

/-- A descriptor that is found is no file's. -/
theorem not_files (h : Rooted disk p P) {handle : ℤ} (hfd : P.descriptor handle = some fd)
    (hmem : fd ∈ P.fds) : ¬∀ fd, P.descriptor handle = some fd → fd.isDir = false := fun hall =>
  Bool.false_ne_true ((hall fd hfd).symm.trans (h.isDir_eq hmem))

/-- The calls that read the field `file` of any descriptor. -/
theorem file_endsIff (h : Rooted disk p P) (handle : ℤ) {f : FilePtr → ProcessCall ℤ} :
    EndsIff disk p (do let fd ← lookupFd handle; let file ← fd.file; f file) P
      (∀ fd, P.descriptor handle = some fd → fd.isDir = false) :=
  .lookupFd (fun hnone fd hfd => by rw [hnone] at hfd; cases hfd) fun _ hfd hmem =>
    .of_stuck (not_files h hfd hmem) (file_stuck h hmem)

theorem sysFilesize_endsIff (h : Rooted disk p P) (handle : ℤ) :
    EndsIff disk p (sysFilesize handle) P
      (∀ fd, P.descriptor handle = some fd → fd.isDir = false) :=
  file_endsIff h handle

theorem sysTell_endsIff (h : Rooted disk p P) (handle : ℤ) :
    EndsIff disk p (sysTell handle) P
      (∀ fd, P.descriptor handle = some fd → fd.isDir = false) :=
  file_endsIff h handle

theorem sysSeek_endsIff (h : Rooted disk p P) (handle : ℤ) (pos : UInt32) :
    EndsIff disk p (sysSeek handle pos) P
      (0 ≤ toOff pos → ∀ fd, P.descriptor handle = some fd → fd.isDir = false) := by
  unfold sysSeek
  refine .lookupFd (fun hnone _ fd hfd => by rw [hnone] at hfd; cases hfd) fun fd hfd hmem => ?_
  by_cases hpos : 0 ≤ toOff pos
  · rw [if_pos hpos]
    exact .of_stuck (fun hall => not_files h hfd hmem (hall hpos)) (file_stuck h hmem)
  · rw [if_neg hpos]
    exact .of_ends (fun hnonneg => absurd hnonneg hpos) (ends_pure.2 h)

theorem sysIsdir_endsIff (h : Rooted disk p P) (handle : ℤ) :
    EndsIff disk p (sysIsdir handle) P True :=
  .lookupFd (fun _ => trivial) fun _ _ _ => .of_ends trivial (ends_pure.2 h)

/-- An open directory of a descriptor. -/
theorem mem_dirs {d : DirPtr} (hmem : fd ∈ P.fds) (hd : fd.opened = .directory (some d)) :
    d ∈ P.kernel.workDir :: P.fds.filterMap Descriptor.dir := by
  refine List.mem_cons_of_mem _ (List.mem_filterMap.2 ⟨fd, hmem, ?_⟩)
  rw [Descriptor.dir, hd]

/-- `readdir` ends unless the descriptor is a file's. -/
theorem sysReaddir_endsIff (hdisk : FlatRoot disk t len) (h : Rooted disk p P) (handle : ℤ)
    (name : UInt32) :
    EndsIff disk p (sysReaddir handle name) P
      (∀ fd, P.descriptor handle = some fd → fd.isDir = true) := by
  have hcond : ∀ fd, P.descriptor handle = some fd → fd.isDir = true := fun fd hfd =>
    h.isDir_eq (List.mem_of_find?_eq_some hfd)
  refine .lookupFd (fun _ => hcond) fun fd hfd hmem => ?_
  obtain ⟨d, hd⟩ := h.isDir fd hmem
  unfold Descriptor.directory
  rw [hd]
  dsimp only
  rw [pure_bind]
  cases d with
  | none => exact .of_ends hcond (ends_pure.2 h)
  | some d =>
    obtain ⟨dir, hdir, -⟩ := h.dirs.open' d (mem_dirs hmem hd)
    have hlen := (hdisk.file _ h.dirs.root.store).len_lt
    refine .onDirs (h.dirs.readdirFrom_returns hdisk hdir (mem_dirs hmem hd) (by decide)
      (by omega)) fun entry D hD => .of_ends hcond ?_
    have hD' := h.work hD.1 hD.2
    cases entry with
    | none => exact ends_pure.2 hD'
    | some bytes => exact ⟨.ok 1, _, rfl, hD'.congr rfl rfl⟩

/-- `inumber` ends unless the descriptor is a directory that is not there. -/
theorem sysInumber_endsIff (h : Rooted disk p P) (handle : ℤ) :
    EndsIff disk p (sysInumber handle) P
      (∀ fd, P.descriptor handle = some fd → fd.opened ≠ .directory none) := by
  refine .lookupFd (fun hnone fd hfd => by rw [hnone] at hfd; cases hfd) fun fd hfd hmem => ?_
  obtain ⟨d, hd⟩ := h.isDir fd hmem
  rw [hd]
  cases d with
  | none =>
    refine .of_stuck (fun hall => hall fd hfd hd) (Stuck.bind (onDirs_stuck ?_))
    exact Ensures.seq (ensures_halt (Q := fun _ _ => False)) fun _ _ hfalse => hfalse.elim
  | some d =>
    have hcond : ∀ fd, P.descriptor handle = some fd → fd.opened ≠ .directory none := by
      intro fd' hfd' hnone
      obtain rfl : fd = fd' := Option.some.inj (hfd.symm.trans hfd')
      rw [hd] at hnone
      cases hnone
    obtain ⟨dir, hdir, hp, -⟩ := h.dirs.open' d (mem_dirs hmem hd)
    obtain ⟨inode, hinode, -⟩ := h.dirs.root.inode
    refine .onDirs (R := fun q D => q = p ∧ D = P.kernel) ?_ fun q D hD => ?_
    · exact Returns.bind (returns_pure.2 (Returns.bind (getDir_returns hdir
        (returns_pure.2 ⟨hp, rfl⟩))))
    · obtain ⟨rfl, rfl⟩ := hD
      refine .onDirs (R := fun i D => i = inode ∧ D = P.kernel)
        (onInodes_returns ⟨_, _, run_getInode hinode, rfl, rfl⟩) fun i D hD => ?_
      obtain ⟨rfl, rfl⟩ := hD
      exact .of_ends hcond (ends_pure.2 h)

/-- `close` always ends. -/
theorem sysClose_endsIff (h : Rooted disk p P) (handle : ℤ) :
    EndsIff disk p (sysClose handle) P True := by
  refine .lookupFd (fun _ => trivial) fun fd hfd hmem => ?_
  obtain ⟨d, hd⟩ := h.isDir fd hmem
  rw [hd]
  have hperm := (perm_eraseP_of_find? hfd).filterMap Descriptor.dir
  have hdir : fd.dir = d := by rw [Descriptor.dir, hd]
  have hdirs : DirsOpen disk p (d.toList ++ P.kernel.workDir ::
      (P.fds.eraseP fun fd => fd.handle == handle).filterMap Descriptor.dir) 0 P.kernel := by
    refine h.dirs.perm ((hperm.cons P.kernel.workDir).trans ?_)
    rw [List.filterMap_cons, hdir]
    cases d with
    | none => rfl
    | some d => exact List.Perm.swap d P.kernel.workDir _
  refine .onDirs (hdirs.dirClose_returns (List.cons_ne_nil _ _)) fun _ D hD => .of_ends trivial ?_
  refine Ends.seq (P := fun r P' => r = .ok ⟨⟩ ∧ Rooted disk p P')
    (ends_modify.2 ⟨rfl, ?_, fun fd hfd => h.isDir fd (List.mem_of_mem_eraseP hfd)⟩)
    (fun _ P' h' => ends_pure.2 h'.2) fun e P' h' => by cases h'.1
  show DirsOpen disk p (D.workDir :: _) 0 D
  rw [hD.2.workDir]
  exact hD.1

end Descriptors

/-! ### Reading, writing, creating and opening -/

section Calls

variable {disk : BlockSector → Sector} {p : InodePtr} {P : Process} {t : Tree} {len : ℕ}

/-- What the call returns is made of a value that it has. -/
theorem Fine.map {α β : Type} {x : ProcessCall α} (h : Ends x P (Fine disk p)) (f : α → β) :
    Ends (x >>= fun a => pure (f a)) P (Fine disk p) :=
  h.seq (fun _ _ h' => ends_pure.2 h') fun _ _ he => he

theorem sysRead_endsIff (h : Rooted disk p P) (handle : ℤ) (udst size : UInt32) :
    EndsIff disk p (sysRead handle udst size) P True := by
  unfold sysRead
  by_cases hkeys : handle = 0
  · rw [if_pos hkeys]
    exact .of_ends trivial (Fine.map (readKeys_ends size.toNat udst h) fun _ => toOff size)
  · rw [if_neg hkeys]
    refine .onDirs (h.dirs.uninit_returns 4) fun stray D hD => ?_
    have h' : Rooted disk p { P with kernel := D } := h.work hD.2.2.2 hD.2.1
    refine .lookupFd (fun _ => trivial) fun fd _ hmem => .of_ends trivial ?_
    rw [if_pos (h'.isDir_eq hmem)]
    exact ends_pure.2 h'

theorem sysWrite_endsIff (h : Rooted disk p P) (handle : ℤ) (usrc size : UInt32) :
    EndsIff disk p (sysWrite handle usrc size) P True := by
  unfold sysWrite
  by_cases hconsole : handle = 1
  · rw [if_pos hconsole]
    exact .of_ends trivial (Fine.map (writePages_ends h size.toNat usrc size.toNat)
      fun written => toOff (UInt32.ofNat written))
  · rw [if_neg hconsole]
    refine .lookupFd (fun _ => trivial) fun fd _ hmem => .of_ends trivial ?_
    rw [if_pos (h.isDir_eq hmem)]
    exact ends_pure.2 h

theorem sysCreate_endsIff (hdisk : FlatRoot disk t len) (h : Rooted disk p P) {turns : ℕ}
    (path : UserString) (hturns : path.bytes.length < turns) (initialSize : UInt32) :
    EndsIff disk p (sysCreate turns path.bytes initialSize) P
      (path.bytes = [] ∨ P.kernel.fs.memory 1 = true) := by
  by_cases hcond : path.bytes = [] ∨ P.kernel.fs.memory 1 = true
  · refine .onDirs (h.dirs.filesysCreate_returns hdisk List.mem_cons_self path.noNull hturns _
      hcond) fun ok D hD => .of_ends hcond ?_
    exact ends_pure.2 (h.work hD.1 hD.2)
  · refine .of_stuck hcond (Stuck.bind (onDirs_stuck ?_))
    rw [not_or, Bool.not_eq_true] at hcond
    exact h.dirs.filesysCreate_stuck List.mem_cons_self turns _ hcond.1 hcond.2

/-- **A new descriptor** of a directory. -/
theorem installFd_ends {d : Option DirPtr}
    (hdirs : DirsOpen disk p (d.toList ++ P.kernel.workDir :: P.fds.filterMap Descriptor.dir) 0
      P.kernel)
    (hfds : ∀ fd ∈ P.fds, ∃ d, fd.opened = .directory d) :
    Ends (installFd (.directory d)) P (Fine disk p) := by
  unfold installFd
  rw [ends_get_bind, ends_set_bind, ends_pure]
  refine ⟨?_, fun fd hfd => ?_⟩
  · refine hdirs.perm ?_
    rw [List.filterMap_cons]
    cases d with
    | none => rfl
    | some d => exact List.Perm.swap _ _ _
  · rcases List.mem_cons.1 hfd with rfl | hfd
    · exact ⟨d, rfl⟩
    · exact hfds fd hfd

/-- `open ("/")`. -/
theorem sysOpen_slash (h : Rooted disk p P) (turns : ℕ) (hmem : P.kernel.fs.memory 0 = true) :
    Ends (sysOpen turns [47]) P fun r P' => r = .ok P.nextHandle ∧
      ∃ d, P'.descriptor P.nextHandle = some ⟨P.nextHandle, .directory d⟩ := by
  unfold sysOpen
  refine onDirs_seq h.dirs.alloc_returns fun delivered D₁ h₁ => ?_
  obtain ⟨rfl, h₁, -⟩ := h₁
  rw [hmem, if_neg (by simp), if_pos rfl]
  refine onDirs_seq (h₁.dirOpenRoot_returns (List.cons_ne_nil _ _)) fun r D₂ _ => ?_
  unfold installFd
  rw [ends_get_bind, ends_set_bind, ends_pure]
  refine ⟨rfl, r, ?_⟩
  exact List.find?_cons_of_pos (beq_self_eq_true P.nextHandle)

/-- The name that `sys_open` looks up after a path of parts `.`. -/
def Process.lastName (P : Process) (path : List UInt8) : List UInt8 :=
  if 46 ∈ path then [46] else cString ((List.range (nameMax + 1)).map (P.kernel.junk 0))

/-- When `sys_open` ends, with the root directory on the tree `t`. -/
def OpenMeets (t : Tree) (len : ℕ) (P : Process) (path : List UInt8) : Prop :=
  P.kernel.fs.memory 0 = false ∨ path = [47] ∨ path = [] ∨
  P.kernel.fs.memory 2 = true ∧ (onlyDots path = false ∨
    (findEntry (entriesOf (t.bytes P.kernel.fs) len) (P.lastName path)).any fun e =>
      P.kernel.fs.isOpen (entrySector e) || P.kernel.fs.memory 3)

/-- The part of `sys_open` after `traverse_path`. -/
theorem openFound_endsIff (hdisk : FlatRoot disk t len) {ds : List DirPtr} {d : DirPtr}
    (hdirs : DirsOpen disk p (d :: ds) 1 P.kernel) (name : List UInt8) {cond : Prop}
    (hcond : cond ↔ (findEntry (entriesOf (t.bytes P.kernel.fs) len) (cString name)).any fun e =>
      P.kernel.fs.isOpen (entrySector e) || P.kernel.fs.memory 0)
    (hrooted : ∀ D, DirsOpen disk p ds 0 D → D.workDir = P.kernel.workDir →
      Rooted disk p { P with kernel := D }) :
    EndsIff disk p (openFound d name) P cond := by
  unfold openFound
  refine .onDirs (hdirs.dirLookup_returns hdisk List.mem_cons_self (cString name))
    fun currInode D hD => ?_
  obtain ⟨hfound, hD, hwork⟩ := hD
  cases currInode with
  | some inode =>
    refine .of_ends (hcond.2 hfound.symm) ?_
    rw [if_pos Option.isSome_some]
    exact ends_pure.2 (hrooted D hD.drop.forget.forget hwork)
  | none =>
    refine .of_stuck (fun hyes => ?_) ?_
    · exact Bool.false_ne_true (hfound.trans (hcond.1 hyes))
    · rw [if_neg (by simp)]
      exact Stuck.bind (onDirs_stuck ensures_halt)

/-- `open` ends if and only if its condition is met. -/
theorem sysOpen_endsIff (hdisk : FlatRoot disk t len) (h : Rooted disk p P) {turns : ℕ}
    (path : UserString) (hturns : path.bytes.length < turns) :
    EndsIff disk p (sysOpen turns path.bytes) P (OpenMeets t len P path.bytes) := by
  unfold sysOpen
  refine .onDirs h.dirs.alloc_returns fun delivered D₁ h₁ => ?_
  obtain ⟨rfl, h₁, hlater₁⟩ := h₁
  have hwork₁ := hlater₁.workDir
  by_cases hfd : P.kernel.fs.memory 0 = false
  · rw [if_pos hfd]
    exact .of_ends (.inl hfd) (ends_pure.2 (h.work h₁ hwork₁))
  rw [if_neg hfd]
  by_cases hroot : path.bytes = [47]
  · rw [if_pos hroot]
    refine .onDirs (h₁.dirOpenRoot_returns (List.cons_ne_nil _ _)) fun r D₂ h₂ =>
      .of_ends (.inr (.inl hroot)) (installFd_ends ?_ h.isDir)
    show DirsOpen disk p (r.toList ++ D₂.workDir :: _) 0 D₂
    rw [h₂.2.2.workDir, hwork₁]
    exact h₂.2.1
  rw [if_neg hroot]
  refine .get (.onDirs (h₁.dirReopen_returns (hwork₁ ▸ List.mem_cons_self))
    fun startDir D₂ h₂ => ?_)
  obtain ⟨-, h₂, hlater₂⟩ := h₂
  have hwork₂ := hlater₂.workDir.trans hwork₁
  refine .onDirs (h₂.uninit_returns (nameMax + 1)) fun name D₃ h₃ => ?_
  obtain ⟨rfl, hwork₃, hfs₃, h₃⟩ := h₃
  replace hwork₃ := hwork₃.trans hwork₂
  have hlater₃ : P.kernel.fs.Later 2 D₃.fs := hfs₃ ▸ hlater₁.fs.trans hlater₂.fs
  -- without a directory, `sys_open` closes the first one and fails
  have hclose : ∀ {D : DirState} {cond : Prop}, cond →
      DirsOpen disk p (startDir.toList ++ P.kernel.workDir :: P.fds.filterMap Descriptor.dir) 0 D →
      D.workDir = P.kernel.workDir →
      EndsIff disk p (do onDirs (dirClose startDir); return -1) { P with kernel := D } cond :=
    fun hcond hD hw => .onDirs (hD.dirClose_returns (List.cons_ne_nil _ _)) fun _ D' hD' =>
      .of_ends hcond (ends_pure.2 (h.work hD'.1 (hD'.2.workDir.trans hw)))
  by_cases hne : path.bytes = []
  · rw [hne]
    refine .onDirs (DirsOpen.traversePath_nil turns _) fun found D₄ h₄ => ?_
    obtain ⟨rfl, rfl⟩ := h₄
    exact hclose (.inr (.inr (.inl rfl))) h₃ hwork₃
  have hmem₃ : D₃.workDir ∈
      startDir.toList ++ P.kernel.workDir :: P.fds.filterMap Descriptor.dir := by
    rw [hwork₃]
    exact List.mem_append.2 (.inr List.mem_cons_self)
  cases hmemory : P.kernel.fs.memory 2 with
  | false =>
    refine .of_stuck (fun hyes => ?_) (Stuck.bind (onDirs_stuck ?_))
    · rcases hyes with hyes | hyes | hyes | ⟨hyes, -⟩
      · exact hfd hyes
      · exact hroot hyes
      · exact hne hyes
      · exact Bool.false_ne_true (hmemory.symm.trans hyes)
    · exact h₃.traversePath_stuck hmem₃ turns _ hne ((hlater₃.memory 0).trans hmemory)
  | true =>
    refine .onDirs (h₃.traversePath_returns hdisk hmem₃ path.noNull hturns _ hne
      ((hlater₃.memory 0).trans hmemory)) fun found D₄ h₄ => ?_
    obtain ⟨hfound, hlater₄⟩ := h₄
    have hwork₄ := hlater₄.workDir.trans hwork₃
    unfold DirsOpen.Found at hfound
    by_cases hdots : onlyDots path.bytes = true
    · rw [if_pos hdots] at hfound
      obtain ⟨d, name', rfl, hname, h₄⟩ := hfound
      refine openFound_endsIff hdisk h₄ name' ?_ fun D hD hw => ?_
      · have hlater : P.kernel.fs.Later 3 D₄.fs := hlater₃.trans hlater₄.fs
        have hlast : cString name' = P.lastName path.bytes := by
          rw [hname, Process.lastName, hlater₂.junk, hlater₁.junk]
        have hbytes : t.bytes D₄.fs = t.bytes P.kernel.fs := by
          rw [Tree.bytes, Tree.bytes, h₄.root.store, h.dirs.root.store]
        have hany : (fun e => D₄.fs.isOpen (entrySector e) || D₄.fs.memory 0) =
            fun e => P.kernel.fs.isOpen (entrySector e) || P.kernel.fs.memory 3 := by
          funext e
          rw [hlater.isOpen, hlater.memory]
        rw [hlast, hbytes, hany, OpenMeets, hmemory, hdots]
        simp [hfd, hroot, hne]
      · exact h.work hD.lose (hw.trans hwork₄)
    · rw [if_neg hdots] at hfound
      obtain ⟨rfl, h₄⟩ := hfound
      refine hclose (.inr (.inr (.inr ⟨hmemory, .inl ?_⟩))) h₄ hwork₄
      rwa [Bool.not_eq_true] at hdots

end Calls

/-! ### Every run -/

/-- What the user program and the rest of the machine change between the calls of the
process: user memory, its mapping, the keys, what memory is left and what buffers hold. -/
structure Outside where
  user : UInt32 → UInt8
  mapped : UInt32 → Bool
  keys : ℕ → UInt8
  memory : ℕ → Bool
  junk : ℕ → ℕ → UInt8

/-- The process after such a change. -/
def Process.after (P : Process) (o : Outside) : Process :=
  { P with
    kernel := { P.kernel with
      files := { P.kernel.files with fs := { P.kernel.files.fs with memory := o.memory } }
      junk := o.junk }
    user := o.user
    mapped := o.mapped
    keys := o.keys }

/-- The path of a call. -/
def FileCall.path : FileCall → List UInt8
  | .create path _ => path.bytes
  | .open path => path.bytes
  | _ => []

/-- **When a call ends**, with the root directory on the tree `t`. -/
def Meets (t : Tree) (len : ℕ) (P : Process) : FileCall → Prop
  | .create path _ => path.bytes = [] ∨ P.kernel.fs.memory 1 = true
  | .open path => OpenMeets t len P path.bytes
  | .filesize handle => ∀ fd, P.descriptor handle = some fd → fd.isDir = false
  | .tell handle => ∀ fd, P.descriptor handle = some fd → fd.isDir = false
  | .seek handle pos =>
    0 ≤ toOff pos → ∀ fd, P.descriptor handle = some fd → fd.isDir = false
  | .readdir handle _ => ∀ fd, P.descriptor handle = some fd → fd.isDir = true
  | .inumber handle => ∀ fd, P.descriptor handle = some fd → fd.opened ≠ .directory none
  | .read .. => True
  | .write .. => True
  | .close _ => True
  | .isdir _ => True

/-- The runs of a process whose calls all end by the condition. -/
inductive Reached (t : Tree) (len : ℕ) (start : Process) : Process → Prop
  | start : Reached t len start start
  | call {P P' : Process} {c : FileCall} {turns : ℕ} {v : ℤ} : Reached t len start P →
      Meets t len P c → c.path.length < turns →
      (ExceptT.run (c.run turns)).run P = some (.ok v, P') → Reached t len start P'
  | outside {P : Process} (o : Outside) : Reached t len start P →
      Reached t len start (P.after o)

section Runs

variable {disk : BlockSector → Sector} {p : InodePtr} {P : Process} {t : Tree} {len : ℕ}

/-- **One call.** -/
theorem fileCall_endsIff (hdisk : FlatRoot disk t len) (h : Rooted disk p P) (c : FileCall)
    {turns : ℕ} (hturns : c.path.length < turns) :
    EndsIff disk p (c.run turns) P (Meets t len P c) := by
  cases c with
  | create path initialSize => exact sysCreate_endsIff hdisk h path hturns initialSize
  | «open» path => exact sysOpen_endsIff hdisk h path hturns
  | filesize handle => exact sysFilesize_endsIff h handle
  | read handle buffer size => exact sysRead_endsIff h handle buffer size
  | write handle buffer size => exact sysWrite_endsIff h handle buffer size
  | seek handle pos => exact sysSeek_endsIff h handle pos
  | tell handle => exact sysTell_endsIff h handle
  | close handle => exact sysClose_endsIff h handle
  | readdir handle name => exact sysReaddir_endsIff hdisk h handle name
  | isdir handle => exact sysIsdir_endsIff h handle
  | inumber handle => exact sysInumber_endsIff h handle

theorem Rooted.after (h : Rooted disk p P) (o : Outside) : Rooted disk p (P.after o) :=
  ⟨⟨⟨h.dirs.root.store, h.dirs.root.found, h.dirs.root.counted, h.dirs.root.next⟩, h.dirs.open',
    h.dirs.nodup, h.dirs.next⟩, h.isDir⟩

/-- **Every run** stays on the root. -/
theorem Reached.rooted {start : Process} (hdisk : FlatRoot disk t len)
    (hstart : Rooted disk p start) (h : Reached t len start P) : Rooted disk p P := by
  induction h with
  | start => exact hstart
  | call _ hmeets hturns hrun ih =>
    exact ((fileCall_endsIff hdisk ih _ hturns).ends hmeets).of_run hrun
  | outside o _ ih => exact ih.after o

/-- A process without descriptors whose working directory is the root, the root being
the file of a tree and not marked as a directory. -/
structure Starts (t : Tree) (len : ℕ) (P : Process) : Prop where
  flat : FlatRoot P.kernel.fs.store t len
  dirs : ∃ p, DirsOpen P.kernel.fs.store p [P.kernel.workDir] 0 P.kernel
  fds : P.fds = []

theorem Starts.rooted (h : Starts t len P) : ∃ p, Rooted P.kernel.fs.store p P := by
  obtain ⟨p, hdirs⟩ := h.dirs
  refine ⟨p, ?_, ?_⟩
  · rw [h.fds]
    exact hdirs
  · rw [h.fds]
    exact fun fd hfd => absurd hfd List.not_mem_nil

/-- **`filesys_init`** makes such a start, whatever the device held. -/
theorem filesysInit_starts {size : BlockSector} {store : BlockSector → Sector}
    (hfs : P.kernel.fs = fresh size store) (hfds : P.fds = []) (h : 1024 ≤ size.toNat)
    (h' : (freeMapInit size).byteCnt ≤ 512 * capacity) :
    Returns (filesysInit true) P.kernel fun r D => ∃ d t, r = some d ∧ D.fs.Memory ∧
      Starts t 360 { P with kernel := { D with workDir := d } } := by
  refine (filesysInit_flat hfs h h').mono fun r D hD => ?_
  obtain ⟨d, p, t, hr, hflat, hdirs, hmem⟩ := hD
  exact ⟨d, t, hr, hmem, hflat, ⟨p, hdirs.root, hdirs.open', hdirs.nodup, hdirs.next⟩, hfds⟩

/-- **The system calls on files end as they are to if and only if `Meets` says so**, in
every state of a run whose calls so far did. -/
theorem fileCalls_end {start : Process} (hstart : Starts t len start)
    (h : Reached t len start P) (c : FileCall) {turns : ℕ} (hturns : c.path.length < turns) :
    Ends (c.run turns) P (fun r _ => (∃ v, r = .ok v) ∨ r = .error .exit) ↔ Meets t len P c := by
  obtain ⟨p, hrooted⟩ := hstart.rooted
  have hcall := fileCall_endsIff hstart.flat (h.rooted hstart.flat hrooted) c hturns
  constructor
  · intro hends
    by_contra hno
    exact (hcall.stuck hno).not_ends hends
  · refine fun hmeets => (hcall.ends hmeets).mono fun r P' hr => ?_
    cases r with
    | ok v => exact .inl ⟨v, rfl⟩
    | error e => exact .inr (congrArg _ hr)

end Runs

/-! ### A new file system -/

/-- The first process on a device of 2048 sectors, before `filesys_init`. -/
def firstProcess : Process where
  kernel := {
    files := { fs := fresh 2048 fun _ => Sector.zero, files := fun _ => none, nextFile := 0 }
    dirs := fun _ => none
    nextDir := 0
    workDir := 0
    junk := fun _ _ => 0 }
  fds := []
  nextHandle := 2
  user := fun _ => 0
  mapped := fun _ => false
  keys := fun _ => 0

/-- `/`. -/
def slash : UserString := ⟨[47], by decide⟩

theorem firstProcess_starts :
    Returns (filesysInit true) firstProcess.kernel fun r D => ∃ d t, r = some d ∧ D.fs.Memory ∧
      Starts t 360 { firstProcess with kernel := { D with workDir := d } } :=
  filesysInit_starts rfl rfl (by decide) (by decide)

/-- The first process after `open ("/")`, whose descriptor is 2. -/
theorem firstProcess_opens :
    Returns (filesysInit true) firstProcess.kernel fun r D => ∃ d t P directory, r = some d ∧
      Starts t 360 { firstProcess with kernel := { D with workDir := d } } ∧
      Reached t 360 { firstProcess with kernel := { D with workDir := d } } P ∧
      P.descriptor 2 = some ⟨2, .directory directory⟩ := by
  refine firstProcess_starts.mono fun r D hD => ?_
  obtain ⟨d, t, hr, hmem, hstart⟩ := hD
  obtain ⟨p, hrooted⟩ := hstart.rooted
  obtain ⟨r, P, hrun, rfl, directory, hfd⟩ := sysOpen_slash hrooted 2 (hmem 0)
  exact ⟨d, t, P, directory, hr, hstart,
    .call (c := .open slash) .start (Or.inr (.inl rfl)) (by decide) hrun, hfd⟩

/-- `open ("/")`, and `readdir` of the descriptor. -/
theorem fileCalls_end_slash :
    Returns (filesysInit true) firstProcess.kernel fun r D => ∃ d t P directory, r = some d ∧
      Reached t 360 { firstProcess with kernel := { D with workDir := d } } P ∧
      P.descriptor 2 = some ⟨2, .directory directory⟩ ∧
      Ends ((FileCall.readdir 2 100).run 1) P fun r _ => (∃ v, r = .ok v) ∨ r = .error .exit := by
  refine firstProcess_opens.mono fun r D hD => ?_
  obtain ⟨d, t, P, directory, hr, hstart, hreached, hfd⟩ := hD
  refine ⟨d, t, P, directory, hr, hreached, hfd,
    (fileCalls_end hstart hreached (.readdir 2 100) (by decide)).2 fun fd hfd' => ?_⟩
  rw [hfd] at hfd'
  exact Option.some.inj hfd' ▸ rfl

/-- `open ("/")` and `filesize` of the descriptor. -/
theorem filesize_stuck :
    Returns (filesysInit true) firstProcess.kernel fun r D => ∃ d t P, r = some d ∧
      Starts t 360 { firstProcess with kernel := { D with workDir := d } } ∧
      Reached t 360 { firstProcess with kernel := { D with workDir := d } } P ∧
      ¬Ends ((FileCall.filesize 2).run 1) P fun r _ => (∃ v, r = .ok v) ∨ r = .error .exit := by
  refine firstProcess_opens.mono fun r D hD => ?_
  obtain ⟨d, t, P, directory, hr, hstart, hreached, hfd⟩ := hD
  obtain ⟨p, hrooted⟩ := hstart.rooted
  refine ⟨d, t, P, hr, hstart, hreached, Stuck.not_ends ?_⟩
  refine (sysFilesize_endsIff (hreached.rooted hstart.flat hrooted) 2).stuck fun hall => ?_
  exact Bool.false_ne_true (hall _ hfd).symm

end Userprog
end CS162

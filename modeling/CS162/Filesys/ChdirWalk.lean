/-
# Where `system_chdir` comes

`Held` is what the calls of `system_chdir` keep of the table of open inodes: handles are
added to it and closed, and those that were there stay.  `chdirFrom_reaches` follows the
loop along the `trail` of the path.

`system_chdir` does what it is to do where the directory in which it starts gets memory, and
no plain file is on a trail that comes to its end (`systemChdir_right`).
-/

import CS162.Filesys.Chdir
import CS162.Filesys.Format

namespace CS162
namespace Filesys

open CS162.Basis

/-- The sectors that are open are those of the handles. -/
theorem TableInv.isOpen_iff {T : Table} (h : TableInv T) (t : BlockSector) :
    T.fs.isOpen t = true ↔ ∃ g ∈ T.handles, g.key = t := by
  rw [← h.spec.entry_iff t, FsState.isOpen, List.any_eq_true]
  refine exists_congr fun p => and_congr_right fun _ => ?_
  rw [FsState.isAt, Option.any_eq_true]
  exact exists_congr fun inode => and_congr_right fun _ => beq_iff_eq

/-! ### Handles that are added to the table -/

/-- The table with more handles, after `k` requests for memory. -/
structure Held (T : Table) (gs : List InodeHandle) (k : ℕ) (σ : FsState) : Prop where
  base : TableInv T
  inv : TableInv { T with fs := σ, handles := gs ++ T.handles }
  store : σ.store = T.fs.store
  freeMap : σ.freeMap = T.fs.freeMap
  freeMapFile : σ.freeMapFile = T.fs.freeMapFile
  memory : ∀ j, σ.memory j = T.fs.memory (k + j)
  next : T.fs.nextPtr ≤ σ.nextPtr
  listed : ∀ p ∈ σ.openInodes, p ∈ T.fs.openInodes ∨ T.fs.nextPtr ≤ p
  kept : ∀ p inode, T.fs.inodes p = some inode →
    ∃ n, σ.inodes p = some { inode with openCnt := n }

namespace Held

variable {T : Table} {gs : List InodeHandle} {k : ℕ} {σ : FsState} {g : InodeHandle}
  {p : InodePtr} {i : Inode}

theorem start (h : TableInv T) : Held T [] 0 T.fs where
  base := h
  inv := h
  store := rfl
  freeMap := rfl
  freeMapFile := rfl
  memory j := by rw [Nat.zero_add]
  next := Nat.le_refl _
  listed p hp := .inl hp
  kept p inode hp := ⟨inode.openCnt, hp⟩

/-- The inode of a handle. -/
theorem inode_of (h : Held T gs k σ) (hg : g ∈ gs ++ T.handles) : g.ptr ∈ σ.openInodes ∧
    ∃ inode, σ.inodes g.ptr = some inode ∧ inode.sector = g.key :=
  h.inv.inode_of_handle hg

/-- The sectors that are open. -/
theorem isOpen (h : Held T gs k σ) (t : BlockSector) :
    σ.isOpen t = true ↔ T.fs.isOpen t = true ∨ ∃ g ∈ gs, g.key = t := by
  rw [show σ.isOpen t = true ↔ ∃ g ∈ gs ++ T.handles, g.key = t from h.inv.isOpen_iff t,
    h.base.isOpen_iff, or_comm]
  simp only [List.mem_append, or_and_right, exists_or]

theorem shift (h : Held T gs k σ) : Held T gs (k + 1) σ.shift where
  base := h.base
  inv := h.inv.kept ⟨rfl, Nat.le_refl _, fun _ => rfl⟩
  store := h.store
  freeMap := h.freeMap
  freeMapFile := h.freeMapFile
  memory j := by
    rw [Nat.add_assoc, Nat.add_comm 1, ← h.memory]
    rfl
  next := h.next
  listed := h.listed
  kept := h.kept

/-- The count of an open inode changes. -/
theorem put (h : Held T gs k σ) {gs' : List InodeHandle} {n : ℤ} (hp : σ.inodes p = some inode)
    (hinv : TableInv { T with
      fs := σ.put p (some { inode with openCnt := n }), handles := gs' ++ T.handles }) :
    Held T gs' k (σ.put p (some { inode with openCnt := n })) where
  base := h.base
  inv := hinv
  store := h.store
  freeMap := h.freeMap
  freeMapFile := h.freeMapFile
  memory := h.memory
  next := h.next
  listed := h.listed
  kept q i hi := by
    obtain ⟨m, hm⟩ := h.kept q i hi
    by_cases hq : q = p
    · subst hq
      obtain rfl := Option.some.inj (hm.symm.trans hp)
      exact ⟨n, FsState.put_self _ _ _⟩
    · exact ⟨m, (FsState.put_of_ne _ _ hq).trans hm⟩

/-- **`inode_reopen`**. -/
theorem reopen (h : Held T gs k σ) (hg : g ∈ gs ++ T.handles) :
    Returns (inodeReopen g.ptr) σ fun _ σ' => Held T (⟨g.ptr, g.key⟩ :: gs) k σ' := by
  obtain ⟨hp, inode, hinode, hkey⟩ := h.inode_of hg
  exact ⟨_, _, run_inodeReopen hinode, h.put hinode (h.inv.reopened hp hinode hkey)⟩

/-- **`inode_open`**. -/
theorem openSector (h : Held T gs k σ) (t : BlockSector) :
    Returns (inodeOpen t) σ fun r σ' =>
      (σ.isOpen t = true ∧ ∃ p, r = some p ∧ Held T (⟨p, t⟩ :: gs) k σ') ∨
      (σ.isOpen t = false ∧ T.fs.memory k = true ∧
        ∃ p, r = some p ∧ Held T (⟨p, t⟩ :: gs) (k + 1) σ') ∨
      (σ.isOpen t = false ∧ T.fs.memory k = false ∧ r = none ∧ Held T gs (k + 1) σ') := by
  have hmem : σ.memory 0 = T.fs.memory k := h.memory 0
  rcases inodeOpen_cases σ t with ⟨p, hp, i, hi, hsector, hrun⟩ | ⟨hnone, hrun⟩
  · have hopen : σ.isOpen t = true := by
      refine List.any_eq_true.2 ⟨p, hp, ?_⟩
      rw [FsState.isAt, hi, Option.any_some, hsector, beq_self_eq_true]
    exact ⟨_, _, hrun, .inl ⟨hopen, p, rfl, h.put hi (h.inv.reopened hp hi hsector)⟩⟩
  · have hclosed : σ.isOpen t = false := by
      rw [← Bool.not_eq_true, show σ.isOpen t = true ↔ ∃ g ∈ gs ++ T.handles, g.key = t from h.inv.isOpen_iff t]
      rintro ⟨g, hg, rfl⟩
      obtain ⟨hp, i, hi, hkey⟩ := h.inode_of hg
      exact hnone _ hp _ (hkey ▸ FsState.cell_of_inode hi)
    cases hdelivered : σ.memory 0 with
    | false =>
      rw [hdelivered] at hrun hmem
      exact ⟨_, _, hrun, .inr (.inr ⟨hclosed, hmem.symm, rfl, h.shift⟩)⟩
    | true =>
      rw [hdelivered] at hrun hmem
      refine ⟨_, _, hrun, .inr (.inl ⟨hclosed, hmem.symm, _, rfl, h.base, h.inv.entered hnone, h.store, h.freeMap, h.freeMapFile,
        h.shift.memory, Nat.le_succ_of_le h.next, fun q hq => ?_, fun q i hi => ?_⟩)⟩
      · rcases List.mem_cons.1 hq with rfl | hq
        · exact .inr h.next
        · exact h.listed q hq
      · obtain ⟨n, hn⟩ := h.kept q i hi
        refine ⟨n, (FsState.put_of_ne σ.shift _ fun he => ?_).trans hn⟩
        have hfresh : σ.inodes σ.nextPtr = none := h.inv.fresh _ (Nat.le_refl _)
        rw [he] at hn
        cases hfresh.symm.trans hn

/-- The last handle on an inode is one on an inode that was not open. -/
theorem last (h : Held T gs k σ) (hg : g ∈ gs) (hi : σ.inodes g.ptr = some i)
    (hlast : i.openCnt = 1) : T.fs.nextPtr ≤ g.ptr := by
  have hmem := List.mem_append_left T.handles hg
  refine (h.listed _ (h.inode_of hmem).1).resolve_left fun hold => ?_
  obtain ⟨g', hg', hptr⟩ := refs_pos.1 (h.base.counted.held _ hold)
  have hother : g' ∈ (gs ++ T.handles).erase g := by
    rw [List.erase_append_left _ hg]
    exact List.mem_append_right _ hg'
  refine (h.inv.last_iff hmem hi).1 hlast g' hother ?_
  obtain ⟨-, j, hj, hkey⟩ := h.inode_of (List.mem_append_right gs hg')
  obtain ⟨-, j', hj', hkey'⟩ := h.inode_of hmem
  rw [hptr] at hj
  obtain rfl := Option.some.inj (hj.symm.trans hj')
  rw [← hkey, hkey']

/-- **`inode_close`** of a handle that was added. -/
theorem close (h : Held T gs k σ) (hg : g ∈ gs) :
    Returns (inodeClose g.ptr) σ fun _ σ' => Held T (gs.erase g) k σ' := by
  have hmem := List.mem_append_left T.handles hg
  obtain ⟨hp, i, hi, hkey⟩ := h.inode_of hmem
  have herase : (gs ++ T.handles).erase g = gs.erase g ++ T.handles := List.erase_append_left _ hg
  by_cases hlast : i.openCnt = 1
  · have hnew := h.last hg hi hlast
    have hremoved : i.removed = false := by
      refine Bool.eq_false_iff.2 fun hremoved => ?_
      exact Nat.not_lt.2 hnew (h.base.removals _ ((h.inv.marked _ hp i hi).1 hremoved))
    have hrun := run_inodeClose_last hi hlast
    rw [hremoved, if_neg Bool.false_ne_true] at hrun
    have hinv := h.inv.left hmem hi hlast (inodeClose_left hi hlast _ _ hrun)
    refine ⟨_, _, hrun, ⟨h.base, ?_, h.store, h.freeMap, h.freeMapFile, h.memory, h.next,
      fun q hq => h.listed q (List.mem_of_mem_erase hq), fun q j hj => ?_⟩⟩
    · have hbit : ((σ.leaving g.ptr i).put g.ptr none).freeMap.bits g.key.toNat =
        σ.freeMap.bits g.key.toNat := rfl
      rw [herase, if_pos hbit] at hinv
      exact hinv
    · obtain ⟨n, hn⟩ := h.kept q j hj
      have hne : q ≠ g.ptr := fun he => by
        rw [he, h.base.fresh _ hnew] at hj
        cases hj
      exact ⟨n, (FsState.put_of_ne _ _ hne).trans ((FsState.put_of_ne _ _ hne).trans hn)⟩
  · refine ⟨_, _, run_inodeClose hi hlast, h.put hi ?_⟩
    rw [← herase]
    exact h.inv.dropped hmem hi hlast

end Held

/-! ### Directories that are opened -/

/-- The kernel with more handles and directories, `k` requests for memory after `D₀`. -/
structure Going (T : Table) (D₀ : DirState) (gs : List InodeHandle) (k : ℕ) (D : DirState) : Prop where
  held : Held T gs k D.fs
  dirs : ∀ d < D₀.nextDir, D.dirs d = D₀.dirs d
  next : D₀.nextDir ≤ D.nextDir

/-- A directory that was opened on a sector. -/
structure OpenAt (D₀ : DirState) (d : DirPtr) (p : InodePtr) (D : DirState) : Prop where
  dir : ∃ dir, D.dirs d = some dir ∧ dir.inode = p
  new : D₀.nextDir ≤ d
  next : d < D.nextDir

/-- **`system_chdir` is at a sector**, and holds its directory only. -/
structure At (T : Table) (D₀ : DirState) (s : BlockSector) (k : ℕ) (d : DirPtr) (D : DirState) :
    Prop where
  going : ∃ p, Going T D₀ [⟨p, s⟩] k D ∧ OpenAt D₀ d p D

section Going

variable {T : Table} {D₀ D : DirState} {gs : List InodeHandle} {k : ℕ} {d : DirPtr} {p : InodePtr}
  {s t : BlockSector} {g : InodeHandle}

theorem Going.over (h : Going T D₀ gs k D) {gs' : List InodeHandle} {k' : ℕ} {σ : FsState}
    (hσ : Held T gs' k' σ) : Going T D₀ gs' k' (D.over σ) :=
  ⟨hσ, h.dirs, h.next⟩

theorem OpenAt.over (h : OpenAt D₀ d p D) (σ : FsState) : OpenAt D₀ d p (D.over σ) :=
  ⟨h.dir, h.new, h.next⟩

/-- **`dir_open`** of a handle that was added. -/
theorem Going.dirOpen (h : Going T D₀ (⟨p, s⟩ :: gs) k D) :
    Returns (dirOpen (some p)) D fun r D' =>
      (T.fs.memory k = true ∧ ∃ d, r = some d ∧ Going T D₀ (⟨p, s⟩ :: gs) (k + 1) D' ∧
        OpenAt D₀ d p D' ∧ D.nextDir ≤ d ∧ ∀ e q, OpenAt D₀ e q D → OpenAt D₀ e q D') ∨
      (T.fs.memory k = false ∧ r = none ∧ Going T D₀ gs (k + 1) D' ∧
        ∀ e q, OpenAt D₀ e q D → OpenAt D₀ e q D') := by
  have hmem : D.fs.memory 0 = T.fs.memory k := h.held.memory 0
  unfold Filesys.dirOpen
  refine onInodes_seq (P := fun ok σ => ok = D.fs.memory 0 ∧ Held T (⟨p, s⟩ :: gs) (k + 1) σ)
    ⟨_, _, run_alloc D.fs, rfl, h.held.shift⟩ fun ok σ hσ => ?_
  obtain ⟨rfl, hheld⟩ := hσ
  dsimp only
  cases hdelivered : D.fs.memory 0 with
  | true =>
    rw [hdelivered] at hmem
    rw [if_pos rfl, returns_get_bind, returns_set_bind, returns_pure]
    refine .inl ⟨hmem.symm, D.nextDir, rfl, ⟨hheld, fun e he => ?_, Nat.le_succ_of_le h.next⟩,
      ⟨⟨⟨p, 0, 0⟩, Function.update_self .., rfl⟩, h.next, Nat.lt_succ_self _⟩, Nat.le_refl _,
      fun e q he => ⟨?_, he.new, Nat.lt_succ_of_lt he.next⟩⟩
    · have hne : e ≠ D.nextDir := Nat.ne_of_lt (Nat.lt_of_lt_of_le he h.next)
      exact (Function.update_of_ne hne ..).trans (h.dirs e he)
    · obtain ⟨dir, hdir, hq⟩ := he.dir
      exact ⟨dir, (Function.update_of_ne (Nat.ne_of_lt he.next) ..).trans hdir, hq⟩
  | false =>
    rw [hdelivered] at hmem
    rw [if_neg Bool.false_ne_true]
    refine onInodes_seq (hheld.close List.mem_cons_self) fun _ σ' hσ' => returns_pure.2 ?_
    rw [List.erase_cons_head] at hσ'
    exact .inr ⟨hmem.symm, rfl, h.over hσ', fun e q he => (he.over σ).over σ'⟩

/-- **`dir_close`** of a directory that was opened. -/
theorem Going.dirClose (h : Going T D₀ gs k D) (hg : g ∈ gs) (hd : OpenAt D₀ d g.ptr D) :
    Returns (dirClose (some d)) D fun _ D' => Going T D₀ (gs.erase g) k D' ∧
      ∀ e q, e ≠ d → OpenAt D₀ e q D → OpenAt D₀ e q D' := by
  obtain ⟨dir, hdir, hptr⟩ := hd.dir
  unfold Filesys.dirClose
  refine Returns.bind (getDir_returns hdir ?_)
  rw [hptr]
  refine onInodes_seq (h.held.close hg) fun _ σ hσ => returns_modify.2 ?_
  refine ⟨⟨hσ, fun e he => ?_, h.next⟩, fun e q hne he => ⟨?_, he.new, he.next⟩⟩
  · have hne : e ≠ d := Nat.ne_of_lt (Nat.lt_of_lt_of_le he hd.new)
    exact (Function.update_of_ne hne ..).trans (h.dirs e he)
  · obtain ⟨dir', hdir', hq⟩ := he.dir
    exact ⟨dir', (Function.update_of_ne hne ..).trans hdir', hq⟩

theorem run_onInodes {α : Type} (x : Kernel α) (D : DirState) :
    (onInodes x).run D = (x.run D.fs).map fun r => (r.1, D.over r.2) := by
  show ((x.run D.files.fs).map _).map _ = _
  rw [Option.map_map]
  rfl

/-- `dir_lookup` looks the name up at the directory's sector. -/
theorem Going.run_dirLookup (h : Going T D₀ gs k D) (hg : g ∈ gs) (hd : OpenAt D₀ d g.ptr D)
    (name : List UInt8) : ∃ r : Option (Option (List UInt8 × ℕ)),
      entryAt T.fs.store g.key name = r.map (Option.map fun e => entrySector e.1) ∧
      (dirLookup d name).run D = r.bind fun found =>
        match found with
        | some (e, _) => (onInodes (inodeOpen (entrySector e))).run D
        | none => some (none, D) := by
  obtain ⟨dir, hdir, hptr⟩ := hd.dir
  obtain ⟨-, i, hi, hkey⟩ := h.held.inode_of (List.mem_append_left _ hg)
  obtain ⟨r, hrun, hentry⟩ := lookup_runs hi name
  rw [h.held.store, hkey] at hentry
  refine ⟨r, hentry, ?_⟩
  have hget : (getDir d).run D = some (dir, D) := by
    unfold getDir
    rw [run_bind_of_run (a := D) (t := D) rfl, hdir]
    rfl
  unfold Filesys.dirLookup
  rw [run_bind_of_run hget, hptr, StateT.run_bind, run_onInodes, hrun]
  cases r with
  | none => rfl
  | some r =>
    cases r with
    | none => rfl
    | some r => rfl

theorem returns_nonNull {α β : Type} {a : α} {f : α → DirKernel β} {Q : β → DirState → Prop} :
    Returns (nonNull (some a) >>= f) D Q ↔ Returns (f a) D Q := Iff.rfl

theorem erase_pair {α : Type} [DecidableEq α] (a b : α) : [a, b].erase b = [a] := by
  by_cases hab : a = b
  · rw [hab, List.erase_cons_head]
  · rw [List.erase_cons_tail (by simpa using hab), List.erase_cons_head]

/-- The next directory is opened, and the one before it is closed. -/
theorem Going.openNext {p' : InodePtr} (h : Going T D₀ [⟨p', t⟩, ⟨p, s⟩] k D)
    (hd : OpenAt D₀ d p D) :
    Returns (do
      let nextDir ← Filesys.dirOpen (some p')
      Filesys.dirClose (some d)
      return nextDir) D fun r D' =>
        (T.fs.memory k = true ∧ ∃ d', r = some d' ∧ At T D₀ t (k + 1) d' D') ∨
        (T.fs.memory k = false ∧ r = none ∧ ∃ k', Going T D₀ [] k' D') := by
  refine h.dirOpen.seq fun r D₁ h₁ => ?_
  rcases h₁ with ⟨hmem, d', rfl, hgoing, hopen, hlt, hkept⟩ | ⟨hmem, rfl, hgoing, hkept⟩
  · have hne : d' ≠ d := Nat.ne_of_gt (Nat.lt_of_lt_of_le hd.next hlt)
    refine (hgoing.dirClose (g := ⟨p, s⟩) (by simp) (hkept d p hd)).seq fun _ D₂ h₂ => ?_
    obtain ⟨hgoing₂, hkept₂⟩ := h₂
    rw [erase_pair] at hgoing₂
    exact returns_pure.2 (.inl ⟨hmem, d', rfl, ⟨p', hgoing₂, hkept₂ d' p' hne hopen⟩⟩)
  · refine (hgoing.dirClose (g := ⟨p, s⟩) (by simp) (hkept d p hd)).seq fun _ D₂ h₂ => ?_
    have hgoing₂ := h₂.1
    rw [List.erase_cons_head] at hgoing₂
    exact returns_pure.2 (.inr ⟨hmem, rfl, k + 1, hgoing₂⟩)

/-- **A turn of the loop of `system_chdir`.** -/
theorem At.chdirPart (h : At T D₀ s k d D) {name : List UInt8}
    (hentry : entryAt T.fs.store s name = some (some t)) :
    Returns (chdirPart (some d) name) D fun r D' =>
      ((T.fs.opensAt s t k).1 = true ∧ ∃ d', r = some d' ∧ At T D₀ t (T.fs.opensAt s t k).2 d' D') ∨
      ((T.fs.opensAt s t k).1 = false ∧ r = none ∧ ∃ k', Going T D₀ [] k' D') := by
  obtain ⟨p, hgoing, hd⟩ := h.going
  obtain ⟨r, hr, hlookup⟩ := hgoing.run_dirLookup (g := ⟨p, s⟩) List.mem_cons_self hd name
  obtain ⟨found, rfl, hfound⟩ := Option.map_eq_some_iff.1 (hr.symm.trans hentry)
  obtain ⟨⟨e, ofs⟩, rfl, rfl⟩ := Option.map_eq_some_iff.1 hfound
  have hisOpen : D.fs.isOpen (entrySector e) = true ↔
      T.fs.isOpen (entrySector e) = true ∨ entrySector e = s := by
    rw [hgoing.held.isOpen]
    refine or_congr_right ⟨?_, fun he => ⟨_, List.mem_singleton_self _, he.symm⟩⟩
    rintro ⟨g, hg, hkey⟩
    rw [← hkey, List.mem_singleton.1 hg]
  unfold Filesys.chdirPart FsState.opensAt
  have hrun : (dirLookup d name).run D = (onInodes (inodeOpen (entrySector e))).run D := hlookup
  rw [returns_nonNull, returns_bind_congr hrun]
  refine onInodes_seq (hgoing.held.openSector (entrySector e)) fun r σ hσ => ?_
  rcases hσ with ⟨hopen, p', rfl, hheld⟩ | ⟨hopen, hmem, p', rfl, hheld⟩ | ⟨hopen, hmem, rfl, hheld⟩
  · rw [if_pos (hisOpen.1 hopen)]
    exact (hgoing.over hheld).openNext (hd.over σ)
  · rw [if_neg fun hor => Bool.false_ne_true (hopen.symm.trans (hisOpen.2 hor)), hmem, Bool.true_and]
    exact (hgoing.over hheld).openNext (hd.over σ)
  · rw [if_neg fun hor => Bool.false_ne_true (hopen.symm.trans (hisOpen.2 hor)), hmem, Bool.false_and]
    refine ((hgoing.over hheld).dirClose List.mem_cons_self (hd.over σ)).seq fun _ D₂ h₂ => ?_
    have hgoing₂ := h₂.1
    rw [List.erase_cons_head] at hgoing₂
    exact returns_pure.2 (.inr ⟨rfl, rfl, k + 1, hgoing₂⟩)

/-- A part that is not there. -/
theorem At.chdirPart_none (h : At T D₀ s k d D) {name : List UInt8}
    (hentry : entryAt T.fs.store s name = some none) :
    Returns (Filesys.chdirPart (some d) name) D fun r D' => r = none ∧ ∃ k', Going T D₀ [] k' D' := by
  obtain ⟨p, hgoing, hd⟩ := h.going
  obtain ⟨r, hr, hlookup⟩ := hgoing.run_dirLookup (g := ⟨p, s⟩) List.mem_cons_self hd name
  obtain ⟨found, rfl, hfound⟩ := Option.map_eq_some_iff.1 (hr.symm.trans hentry)
  obtain rfl : found = none := Option.map_eq_none_iff.1 hfound
  unfold Filesys.chdirPart
  rw [returns_nonNull, returns_bind_of_run hlookup]
  refine (hgoing.dirClose List.mem_cons_self hd).seq fun _ D' h' => returns_pure.2 ⟨rfl, k, ?_⟩
  rw [List.erase_cons_head] at h'
  exact h'.1

/-- A part of which the directory's inode does not say whether it is there. -/
theorem At.chdirPart_stuck (h : At T D₀ s k d D) {name : List UInt8}
    (hentry : entryAt T.fs.store s name = none) : (Filesys.chdirPart (some d) name).run D = none := by
  obtain ⟨p, hgoing, hd⟩ := h.going
  obtain ⟨r, hr, hlookup⟩ := hgoing.run_dirLookup (g := ⟨p, s⟩) List.mem_cons_self hd name
  obtain rfl : r = none := Option.map_eq_none_iff.1 (hr.symm.trans hentry)
  unfold Filesys.chdirPart
  rw [show (nonNull (some d) : DirKernel DirPtr) = pure d from rfl, pure_bind, StateT.run_bind, hlookup]
  rfl

/-- What the loop of `system_chdir` does on a trail. -/
def Reaches (T : Table) (D₀ : DirState) (workDir : Option DirPtr) (x : DirKernel (Bool × Option DirPtr))
    (D : DirState) : Option (Option (List BlockSector)) → Prop
  | none => x.run D = none
  | some none => ∃ k' D', x.run D = some ((false, workDir), D') ∧ Going T D₀ [] k' D'
  | some (some l) => ∃ t d' k' D', l.getLast? = some t ∧ At T D₀ t k' d' D' ∧
      x.run D = (do Filesys.dirClose workDir; return (true, some d') : DirKernel _).run D'

/-- A turn, and a trail after it. -/
theorem Reaches.cons {workDir : Option DirPtr} {x y : DirKernel (Bool × Option DirPtr)}
    {D₁ : DirState} {trail : Option (Option (List BlockSector))} (h : Reaches T D₀ workDir x D₁ trail)
    (hrun : y.run D = x.run D₁) :
    Reaches T D₀ workDir y D (trail.map (Option.map (s :: ·))) := by
  match trail with
  | none => exact hrun.trans h
  | some none =>
    obtain ⟨k', D', hx, hgoing⟩ := h
    exact ⟨k', D', hrun.trans hx, hgoing⟩
  | some (some l) =>
    obtain ⟨t, d', k', D', hlast, hat, hx⟩ := h
    refine ⟨t, d', k', D', ?_, hat, hrun.trans hx⟩
    cases l with
    | nil => cases hlast
    | cons u l => rw [List.getLast?_cons_cons, hlast]

/-- **The loop of `system_chdir`** follows the trail of the path, by induction on the turns. -/
theorem chdirFrom_reaches {workDir : Option DirPtr} {turns : ℕ} {path : List UInt8}
    (h : At T D₀ s k d D) (hpath : GoodPath path) (hturns : path.length < turns) (name : List UInt8) :
    Reaches T D₀ workDir (chdirFrom workDir turns name path (some d)) D
      (T.fs.trail k s (partsOf path)) := by
  induction turns generalizing path name s k d D with
  | zero => cases hturns
  | succ turns ih =>
    unfold chdirFrom
    cases hparts : partsOf path with
    | nil =>
      rw [getNextPart_end hparts]
      exact ⟨s, d, k, D, rfl, h, rfl⟩
    | cons w ws =>
      obtain ⟨name', rest, hpart, rfl, hrest, rfl, hlt⟩ := getNextPart_part hpath hparts name
      rw [hpart]
      dsimp only
      cases hentry : entryAt T.fs.store s (cString name') with
      | none =>
        rw [FsState.trail_stuck hentry]
        refine (StateT.run_bind _ _ _).trans ?_
        rw [h.chdirPart_stuck hentry]
        rfl
      | some found =>
        cases found with
        | none =>
          rw [FsState.trail_none hentry]
          obtain ⟨_, D₁, hrun, rfl, k', hgoing⟩ := h.chdirPart_none hentry
          exact ⟨k', D₁, run_bind_of_run hrun, hgoing⟩
        | some t =>
          obtain ⟨_, D₁, hrun, hnext⟩ := h.chdirPart hentry
          rcases hnext with ⟨hmem, d', rfl, hat⟩ | ⟨hmem, rfl, k', hgoing⟩
          · rw [FsState.trail_part hentry hmem]
            refine (ih hat hrest (by omega) name').cons ?_
            exact run_bind_of_run hrun
          · rw [FsState.trail_refused hentry hmem]
            exact ⟨k', D₁, run_bind_of_run hrun, hgoing⟩

end Going

/-! ### `system_chdir` -/

/-- A directory that is open on the sector `x`. -/
structure InDir (T : Table) (x : BlockSector) (w : DirPtr) (D : DirState) : Prop where
  dir : ∃ dir, D.dirs w = some dir ∧ ⟨dir.inode, x⟩ ∈ T.handles
  next : w < D.nextDir

section InDir

variable {T : Table} {x : BlockSector} {w : DirPtr} {D : DirState} {gs : List InodeHandle} {k : ℕ}

/-- **`dir_reopen`** of an open directory. -/
theorem Going.dirReopen (h : Going T D gs k D) (hin : InDir T x w D) :
    Returns (dirReopen w) D fun r D' =>
      (T.fs.memory k = true ∧ ∃ d p, r = some d ∧ Going T D (⟨p, x⟩ :: gs) (k + 1) D' ∧
        OpenAt D d p D') ∨
      (T.fs.memory k = false ∧ r = none ∧ Going T D gs (k + 1) D') := by
  obtain ⟨dir, hdir, hhandle⟩ := hin.dir
  unfold Filesys.dirReopen
  refine Returns.bind (getDir_returns hdir ?_)
  refine onInodes_seq (h.held.reopen (List.mem_append_right gs hhandle)) fun _ σ hσ => ?_
  refine (h.over hσ).dirOpen.mono fun r D' hr => ?_
  rcases hr with ⟨hmem, d, rfl, hgoing, hopen, -⟩ | ⟨hmem, rfl, hgoing, -⟩
  · exact .inl ⟨hmem, d, dir.inode, rfl, hgoing, hopen⟩
  · exact .inr ⟨hmem, rfl, hgoing⟩

/-- **`dir_open_root`**. -/
theorem Going.openRoot {D₀ : DirState} (h : Going T D₀ [] k D) (hx : T.fs.isOpen x = true) :
    Returns dirOpenRoot D fun r D' =>
      ((T.fs.opensAt x rootDirSector k).1 = true ∧
        ∃ d, r = some d ∧ At T D₀ rootDirSector (T.fs.opensAt x rootDirSector k).2 d D') ∨
      ((T.fs.opensAt x rootDirSector k).1 = false ∧ r = none) := by
  have hisOpen : D.fs.isOpen rootDirSector = true ↔
      T.fs.isOpen rootDirSector = true ∨ rootDirSector = x := by
    rw [h.held.isOpen]
    constructor
    · rintro (hroot | ⟨g, hg, -⟩)
      · exact .inl hroot
      · cases hg
    · rintro (hroot | hroot)
      · exact .inl hroot
      · exact .inl (hroot ▸ hx)
  unfold dirOpenRoot FsState.opensAt
  refine onInodes_seq (h.held.openSector rootDirSector) fun r σ hσ => ?_
  rcases hσ with ⟨hopen, p', rfl, hheld⟩ | ⟨hopen, hmem, p', rfl, hheld⟩ | ⟨hopen, hmem, rfl, hheld⟩
  · rw [if_pos (hisOpen.1 hopen)]
    refine (h.over hheld).dirOpen.mono fun r D₁ h₁ => ?_
    rcases h₁ with ⟨hmem, d, rfl, hgoing, hopen, -⟩ | ⟨hmem, rfl, -⟩
    · exact .inl ⟨hmem, d, rfl, ⟨p', hgoing, hopen⟩⟩
    · exact .inr ⟨hmem, rfl⟩
  · rw [if_neg fun hor => Bool.false_ne_true (hopen.symm.trans (hisOpen.2 hor)), hmem, Bool.true_and]
    refine (h.over hheld).dirOpen.mono fun r D₁ h₁ => ?_
    rcases h₁ with ⟨hmem, d, rfl, hgoing, hopen, -⟩ | ⟨hmem, rfl, -⟩
    · exact .inl ⟨hmem, d, rfl, ⟨p', hgoing, hopen⟩⟩
    · exact .inr ⟨hmem, rfl⟩
  · rw [if_neg fun hor => Bool.false_ne_true (hopen.symm.trans (hisOpen.2 hor)), hmem, Bool.false_and]
    unfold Filesys.dirOpen
    exact onInodes_seq ⟨_, _, run_alloc _, trivial⟩ fun ok σ' (_ : True) => returns_pure.2 (.inr ⟨rfl, rfl⟩)

theorem run_uninit (n : ℕ) : (uninit n).run D =
    some ((List.range n).map (D.junk 0), { D with junk := fun k => D.junk (k + 1) }) := rfl

/-- **The directory in which `system_chdir` starts.** -/
theorem InDir.starts (htable : TableInv T) (hfs : T.fs = D.fs) (hin : InDir T x w D) (turns : ℕ)
    (path : List UInt8) :
    ∃ name r D', (systemChdir turns (some w) path).run D =
        (chdirFrom (some w) turns name path r).run D' ∧
      (((D.fs.startsAt x path).1 = true ∧
        ∃ d, r = some d ∧ At T D (startSector x path) (D.fs.startsAt x path).2 d D') ∨
      ((D.fs.startsAt x path).1 = false ∧ r = none)) := by
  have hx : T.fs.isOpen x = true := by
    obtain ⟨dir, -, hhandle⟩ := hin.dir
    exact (htable.isOpen_iff x).2 ⟨_, hhandle, rfl⟩
  have hstart : Going T D [] 0 D := ⟨hfs ▸ .start htable, fun _ _ => rfl, Nat.le_refl _⟩
  obtain ⟨r, D₁, hrun₁, h₁⟩ := hstart.dirReopen hin
  rw [hfs] at h₁
  set D₂ : DirState := { D₁ with junk := fun k => D₁.junk (k + 1) }
  set name := (List.range (nameMax + 1)).map (D₁.junk 0)
  have hrun : (systemChdir turns (some w) path).run D =
      (if path.head? = some 47 then do
        dirClose r
        let startDir ← dirOpenRoot
        chdirFrom (some w) turns name path startDir
      else chdirFrom (some w) turns name path r :
        DirKernel (Bool × Option DirPtr)).run D₂ := by
    unfold systemChdir
    rw [run_bind_of_run (a := w) (t := D) rfl, run_bind_of_run hrun₁, run_bind_of_run (run_uninit _)]
  rw [hrun]
  unfold startSector FsState.startsAt
  by_cases hslash : path.head? = some 47
  · rw [if_pos hslash, if_pos hslash, if_pos hslash]
    have hclose : Returns (dirClose r) D₂ fun _ D' => Going T D [] 1 D' := by
      rcases h₁ with ⟨-, d, q, rfl, hgoing, hd⟩ | ⟨-, rfl, hgoing⟩
      · have hgoing₂ : Going T D [⟨q, x⟩] 1 D₂ := ⟨hgoing.held, hgoing.dirs, hgoing.next⟩
        refine (hgoing₂.dirClose List.mem_cons_self ⟨hd.dir, hd.new, hd.next⟩).mono fun _ D' h' => ?_
        rw [List.erase_cons_head] at h'
        exact h'.1
      · exact returns_pure.2 ⟨hgoing.held, hgoing.dirs, hgoing.next⟩
    obtain ⟨_, D₃, hrun₃, hgoing₃⟩ := hclose
    obtain ⟨r', D₄, hrun₄, h₄⟩ := hgoing₃.openRoot hx
    refine ⟨name, r', D₄, ?_, ?_⟩
    · rw [run_bind_of_run hrun₃, run_bind_of_run hrun₄]
    · rw [← hfs]
      exact h₄
  · rw [if_neg hslash, if_neg hslash, if_neg hslash]
    refine ⟨name, r, D₂, rfl, ?_⟩
    rcases h₁ with ⟨hmem, d, q, rfl, hgoing, hd⟩ | ⟨hmem, rfl, -⟩
    · exact .inl ⟨hmem, d, rfl, ⟨q, ⟨hgoing.held, hgoing.dirs, hgoing.next⟩, ⟨hd.dir, hd.new, hd.next⟩⟩⟩
    · exact .inr ⟨hmem, rfl⟩

end InDir

/-- A kernel whose table of open inodes is `T`'s, and a working directory on the inode `p` of
the sector `x`.  The free map can be written, if the inode is to be released. -/
structure Working (T : Table) (p : InodePtr) (x : BlockSector) (w : DirPtr) (D : DirState) : Prop where
  table : TableInv T
  fs : T.fs = D.fs
  dir : ∃ dir, D.dirs w = some dir ∧ dir.inode = p
  handle : ⟨p, x⟩ ∈ T.handles
  next : w < D.nextDir
  map : ∃ fm, FreeMapFile fm (some p) D.fs
  mapOpen : D.fs.freeMapFile ≠ none
  range : x.toNat < D.fs.freeMap.bitCnt
  taken : D.fs.freeMap.bits x.toNat = true

namespace Working

variable {T : Table} {p : InodePtr} {x s : BlockSector} {w d : DirPtr} {D D' : DirState} {k : ℕ}
  {path : List UInt8} {turns : ℕ}

theorem inDir (h : Working T p x w D) : InDir T x w D := by
  obtain ⟨dir, hdir, hptr⟩ := h.dir
  exact ⟨⟨dir, hdir, hptr.symm ▸ h.handle⟩, h.next⟩

/-- `inode_close` of the working directory's inode, which may release it. -/
theorem inodeClose_returns (h : Working T p x w D) {gs : List InodeHandle} {σ : FsState}
    (hheld : Held T gs k σ) : Returns (inodeClose p) σ fun _ _ => True := by
  obtain ⟨hp, i, hi, hkey⟩ := hheld.inode_of (List.mem_append_right gs h.handle)
  dsimp only at hp hi hkey
  obtain ⟨fm, hmap⟩ := h.map
  have hmapOpen := h.mapOpen
  have hrange := h.range
  have htaken := h.taken
  rw [← h.fs, ← hheld.freeMapFile] at hmapOpen
  rw [← h.fs, ← hheld.freeMap, ← hkey] at hrange htaken
  rw [← h.fs] at hmap
  have hready : FreeMapFile fm (some p) σ := by
    refine ⟨fun q hq => hmap.notHeld q (hheld.freeMapFile ▸ hq), fun q hq => ?_, fun _ => ?_⟩
    · obtain ⟨j, hj, hrest⟩ := hmap.inode q (hheld.freeMapFile ▸ hq)
      obtain ⟨n, hn⟩ := hheld.kept q j hj
      exact ⟨_, hn, hrest⟩
    · rw [hheld.freeMap]
      exact (hmap.file (hheld.freeMapFile ▸ hmapOpen)).congr fun s _ => congrFun hheld.store _
  obtain ⟨σ', hrun⟩ := Filesys.inodeClose_returns hi fun _ _ => ⟨hmapOpen, ⟨fm, hready⟩, hrange, htaken⟩
  exact ⟨(), σ', hrun, trivial⟩

end Working

/-- The count of an inode is the number of its handles. -/
theorem TableInv.opens {T : Table} (h : TableInv T) (t : BlockSector) :
    T.fs.opens t = T.handles.countP fun g => g.key = t := by
  unfold FsState.opens
  cases hfind : T.fs.openInodes.find? (T.fs.isAt t) with
  | none =>
    have hzero : (T.handles.countP fun g => g.key = t) = 0 := by
      refine List.countP_eq_zero.2 fun g hg hkey => ?_
      obtain ⟨hp, i, hi, hsector⟩ := h.inode_of_handle hg
      refine List.find?_eq_none.1 hfind _ hp ?_
      rw [FsState.isAt, hi, Option.any_some, hsector, of_decide_eq_true hkey, beq_self_eq_true]
    rw [hzero]
    rfl
  | some p =>
    have hat := List.find?_some hfind
    rw [FsState.isAt, Option.any_eq_true] at hat
    obtain ⟨i, hi, hsector⟩ := hat
    have hcount := (h.spec.openCnt p (List.mem_of_find?_eq_some hfind) i hi).1
    rw [beq_iff_eq.1 hsector] at hcount
    rw [Option.bind_some, hi, ← hcount]
    rfl

/-- **The working directory is another one**: the old one was closed, and the new one is open. -/
structure Moved (x s : BlockSector) (w d : DirPtr) (D D' : DirState) : Prop where
  closed : D'.dirs w = none
  dir : ∃ dir inode, D'.dirs d = some dir ∧ dir.inode ∈ D'.fs.openInodes ∧
    D'.fs.inodes dir.inode = some inode ∧ inode.sector = s
  opens : ∀ t, D'.fs.opens t + (if t = x then 1 else 0) = D.fs.opens t + if t = s then 1 else 0

/-- The working directory and the counts are as they were. -/
structure Unmoved (w : DirPtr) (D D' : DirState) : Prop where
  dir : D'.dirs w = D.dirs w
  opens : ∀ t, D'.fs.opens t = D.fs.opens t

/-- **What `system_chdir` is to do.** -/
def ChdirRight (x : BlockSector) (w : DirPtr) (path : List UInt8) (D : DirState)
    (r : Bool × Option DirPtr) (D' : DirState) : Prop :=
  if r.1 then ∃ s d, Denotes D.fs.store (startSector x path) (partsOf path) s ∧ r.2 = some d ∧
    Moved x s w d D D'
  else r.2 = some w ∧ Unmoved w D D' ∧
    (D.fs.Memory → ∀ s, ¬Denotes D.fs.store (startSector x path) (partsOf path) s)

/-- The condition on `system_chdir`: the directory it starts in gets memory, its trail does not
end where the disk has no byte, and a trail to the path's end is one of directories. -/
def ChdirMeets (x : BlockSector) (path : List UInt8) (D : DirState) : Prop :=
  (D.fs.startsAt x path).1 = true ∧
    ∃ trail, D.fs.trail (D.fs.startsAt x path).2 (startSector x path) (partsOf path) = some trail ∧
      ∀ l, trail = some l → ∀ s ∈ l, IsDirectory D.fs.store s

namespace Working

variable {T : Table} {p : InodePtr} {x s : BlockSector} {w d : DirPtr} {D D' : DirState} {k : ℕ}
  {path : List UInt8} {turns : ℕ}

/-- The handles for a sector when a handle is closed. -/
theorem countP_erase {gs : List InodeHandle} {g : InodeHandle} (hg : g ∈ gs) (t : BlockSector) :
    ((gs.erase g).countP fun g => g.key = t) + (if t = g.key then 1 else 0) =
      gs.countP fun g => g.key = t := by
  rw [(List.perm_cons_erase hg).countP_eq, List.countP_cons]
  simp only [decide_eq_true_eq, eq_comm (a := t)]

/-- **The working directory changes.** -/
theorem close (h : Working T p x w D) (hat : At T D s k d D') :
    Returns (do dirClose (some w); return (true, some d)) D' fun r D'' =>
      r = (true, some d) ∧ Moved x s w d D D'' := by
  obtain ⟨q, hgoing, hopen⟩ := hat.going
  obtain ⟨dir, hdir, hptr⟩ := h.dir
  obtain ⟨dir', hdir', hptr'⟩ := hopen.dir
  have hdirw : D'.dirs w = some dir := (hgoing.dirs w h.next).trans hdir
  have hne : d ≠ w := Nat.ne_of_gt (Nat.lt_of_lt_of_le h.next hopen.new)
  obtain ⟨_, σ, hrun, -⟩ := h.inodeClose_returns hgoing.held
  have hmem : (⟨p, x⟩ : InodeHandle) ∈ [⟨q, s⟩] ++ T.handles := List.mem_append_right _ h.handle
  have hinv := hgoing.held.inv.step (.closed hmem hrun)
  have hclose : Returns (dirClose (some w)) D' fun _ D'' =>
      D'' = { D'.over σ with dirs := Function.update D'.dirs w none } := by
    unfold dirClose
    refine Returns.bind (getDir_returns hdirw ?_)
    rw [hptr]
    have hinode : Returns (inodeClose p) D'.fs fun _ σ' => σ' = σ := ⟨_, _, hrun, rfl⟩
    refine onInodes_seq hinode fun _ σ' hσ' => returns_modify.2 ?_
    rw [hσ']
    rfl
  refine hclose.seq fun _ D'' hD'' => ?_
  subst hD''
  refine returns_pure.2 ⟨rfl, ?_⟩
  have hleft : (⟨q, s⟩ : InodeHandle) ∈ ([(⟨q, s⟩ : InodeHandle)] ++ T.handles).erase ⟨p, x⟩ := by
    by_cases heq : (⟨q, s⟩ : InodeHandle) = ⟨p, x⟩
    · rw [heq, List.singleton_append, List.erase_cons_head]
      exact h.handle
    · exact (List.mem_erase_of_ne heq).2 List.mem_cons_self
  obtain ⟨hq, i, hi, hsector⟩ := hinv.inode_of_handle hleft
  refine ⟨Function.update_self .., ⟨dir', i, (Function.update_of_ne hne ..).trans hdir', ?_, ?_, hsector⟩,
    fun t => ?_⟩
  · rw [hptr']
    exact hq
  · rw [hptr']
    exact hi
  · have hold := h.table.opens t
    have hnew : σ.opens t = ((([(⟨q, s⟩ : InodeHandle)] ++ T.handles).erase ⟨p, x⟩).countP
      fun g => g.key = t) := hinv.opens t
    have hcount : ((([(⟨q, s⟩ : InodeHandle)] ++ T.handles).erase ⟨p, x⟩).countP
        fun g => g.key = t) + (if t = x then 1 else 0) =
        ([(⟨q, s⟩ : InodeHandle)] ++ T.handles).countP fun g => g.key = t := countP_erase hmem t
    have hcons : ([(⟨q, s⟩ : InodeHandle)] ++ T.handles).countP (fun g => g.key = t) =
        T.handles.countP (fun g => g.key = t) + if t = s then 1 else 0 := by
      rw [List.singleton_append, List.countP_cons]
      simp only [decide_eq_true_eq, eq_comm (a := t)]
    rw [h.fs] at hold
    change σ.opens t + _ = _
    rw [hnew, hold]
    exact_mod_cast hcount.trans hcons

/-- Where `system_chdir` fails, nothing is left. -/
theorem unmoved (h : Working T p x w D) (hgoing : Going T D [] k D') : Unmoved w D D' where
  dir := hgoing.dirs w h.next
  opens t := by
    have hnew := hgoing.held.inv.opens t
    have hold := h.table.opens t
    rw [h.fs] at hold
    rw [hold, show D'.fs.opens t = _ from hnew]
    rfl

end Working

/-! ### Trails -/

section Trails

variable {σ : FsState} {k : ℕ} {s t u : BlockSector} {ws : List (List UInt8)} {l : List BlockSector}

/-- A trail that goes on. -/
theorem FsState.trail_cons {w : List UInt8} (h : σ.trail k s (w :: ws) = some (some l)) :
    ∃ t k' l', entryAt σ.store s w = some (some t) ∧ σ.trail k' t ws = some (some l') ∧
      l = s :: l' := by
  cases hentry : entryAt σ.store s w with
  | none =>
    rw [FsState.trail_stuck hentry] at h
    cases h
  | some found =>
    cases found with
    | none =>
      rw [FsState.trail_none hentry] at h
      cases h
    | some t =>
      cases hmem : (σ.opensAt s t k).1 with
      | false =>
        rw [FsState.trail_refused hentry hmem] at h
        cases h
      | true =>
        rw [FsState.trail_part hentry hmem, Option.map_eq_some_iff] at h
        obtain ⟨r, hr, hl⟩ := h
        obtain ⟨l', rfl, rfl⟩ := Option.map_eq_some_iff.1 hl
        exact ⟨t, _, l', rfl, hr, rfl⟩

/-- **A trail of directories ends where the path leads.** -/
theorem FsState.trail_denotes (h : σ.trail k s ws = some (some l))
    (hdirs : ∀ s ∈ l, IsDirectory σ.store s) (hlast : l.getLast? = some t) :
    Denotes σ.store s ws t := by
  induction ws generalizing k s l with
  | nil =>
    cases h
    cases hlast
    exact .here (hdirs s List.mem_cons_self)
  | cons w ws ih =>
    obtain ⟨t', k', l', hentry, hrest, rfl⟩ := FsState.trail_cons h
    refine .part (hdirs s List.mem_cons_self) hentry
      (ih hrest (fun u hu => hdirs u (List.mem_cons_of_mem s hu)) ?_)
    cases l' with
    | nil =>
      cases ws with
      | nil => cases hrest
      | cons w' ws =>
        obtain ⟨_, _, _, -, -, hnil⟩ := FsState.trail_cons hrest
        cases hnil
    | cons v l' => rwa [List.getLast?_cons_cons] at hlast

/-- **Where a path leads, there are directories only on the trail.** -/
theorem Denotes.trail_dirs (h : Denotes σ.store s ws t) (htrail : σ.trail k s ws = some (some l)) :
    ∀ u ∈ l, IsDirectory σ.store u := by
  induction h generalizing k l with
  | here hdir =>
    cases htrail
    intro u hu
    rwa [List.mem_singleton.1 hu]
  | part hdir hentry _ ih =>
    obtain ⟨t', k', l', hentry', hrest, rfl⟩ := FsState.trail_cons htrail
    obtain rfl := Option.some.inj (Option.some.inj (hentry.symm.trans hentry'))
    intro u hu
    rcases List.mem_cons.1 hu with rfl | hu
    · exact hdir
    · exact ih hrest u hu

theorem FsState.Memory.opensAt (h : σ.Memory) : (σ.opensAt s t k).1 = true := by
  unfold FsState.opensAt
  split_ifs
  · exact h k
  · dsimp only
    rw [h k, h (k + 1)]
    rfl

/-- With memory, a path that leads to a directory has a trail. -/
theorem Denotes.trail_ne (h : Denotes σ.store s ws t) (hmem : σ.Memory) :
    σ.trail k s ws ≠ some none := by
  induction h generalizing k with
  | here hdir => exact nofun
  | part hdir hentry _ ih =>
    rw [FsState.trail_part hentry hmem.opensAt]
    intro hnone
    obtain ⟨r, hr, hl⟩ := Option.map_eq_some_iff.1 hnone
    obtain rfl : r = none := Option.map_eq_none_iff.1 hl
    exact ih hr

end Trails

/-! ### The exact condition -/

section Exact

variable {T : Table} {p : InodePtr} {x : BlockSector} {w : DirPtr} {D : DirState}
  {path : List UInt8} {turns : ℕ}

/-- Without a directory to start in, `system_chdir` does not do what it is to. -/
theorem chdirFrom_none {name : List UInt8} {D' : DirState} :
    ¬Returns (chdirFrom (some w) turns name path none) D' (ChdirRight x w path D) := by
  intro h
  cases turns with
  | zero => exact not_returns_halt h
  | succ turns =>
    unfold chdirFrom at h
    rcases hpart : getNextPart name path with ⟨found, name', rest⟩
    rw [hpart] at h
    cases found with
    | false =>
      obtain ⟨r, D'', hrun, hright⟩ := h
      obtain ⟨_, D₁, -, hpure⟩ := run_bind_cases hrun
      cases hpure
      unfold ChdirRight at hright
      rw [if_pos rfl] at hright
      obtain ⟨_, _, -, hnone, -⟩ := hright
      cases hnone
    | true =>
      obtain ⟨r, D'', hrun, -⟩ := h
      obtain ⟨_, D₁, hpart, -⟩ := run_bind_cases hrun
      cases hpart

/-- **`system_chdir` does what it is to do** if and only if the condition is met. -/
theorem systemChdir_right (h : Working T p x w D) (hpath : GoodPath path)
    (hturns : path.length < turns) :
    Returns (systemChdir turns (some w) path) D (ChdirRight x w path D) ↔ ChdirMeets x path D := by
  obtain ⟨name, r, D₁, hrun, hstart⟩ := h.inDir.starts h.table h.fs turns path
  have hiff : Returns (systemChdir turns (some w) path) D (ChdirRight x w path D) ↔
      Returns (chdirFrom (some w) turns name path r) D₁ (ChdirRight x w path D) := by
    unfold Returns
    rw [hrun]
  rw [hiff]
  unfold ChdirMeets
  rcases hstart with ⟨hmem, d, rfl, hat⟩ | ⟨hmem, rfl⟩
  swap
  · exact iff_of_false chdirFrom_none fun hmeets => Bool.false_ne_true (hmem.symm.trans hmeets.1)
  rw [and_iff_right hmem]
  have hreaches : Reaches T _ (some w) _ _ _ := chdirFrom_reaches hat hpath hturns name
  rw [h.fs] at hreaches
  cases htrail : D.fs.trail (D.fs.startsAt x path).2 (startSector x path) (partsOf path) with
  | none =>
    rw [htrail] at hreaches
    refine iff_of_false ?_ fun hmeets => ?_
    · rintro ⟨a, D', hsome, -⟩
      cases hsome.symm.trans hreaches
    · obtain ⟨_, hsome, -⟩ := hmeets
      cases hsome
  | some trail =>
    rw [htrail] at hreaches
    cases trail with
    | none =>
      obtain ⟨k', D', hrun', hgoing⟩ := hreaches
      refine iff_of_true ⟨_, D', hrun', ?_⟩ ⟨none, rfl, nofun⟩
      unfold ChdirRight
      rw [if_neg Bool.false_ne_true]
      exact ⟨rfl, h.unmoved hgoing, fun hall s hs => hs.trail_ne hall htrail⟩
    | some l =>
      obtain ⟨s, d', k', D', hlast, hat', hrun'⟩ := hreaches
      obtain ⟨_, D'', hclose, rfl, hmoved⟩ := h.close hat'
      have hdone := hrun'.trans hclose
      constructor
      · intro hright
        have hdone' := hright.of_run hdone
        unfold ChdirRight at hdone'
        rw [if_pos rfl] at hdone'
        obtain ⟨u, _, hdenotes, -⟩ := hdone'
        exact ⟨some l, rfl, fun l' hl' => Option.some.inj hl' ▸ hdenotes.trail_dirs htrail⟩
      · rintro ⟨_, hl, hdirs⟩
        cases hl
        refine ⟨_, D'', hdone, ?_⟩
        unfold ChdirRight
        rw [if_pos rfl]
        exact ⟨s, d', FsState.trail_denotes htrail (hdirs l rfl) hlast, rfl, hmoved⟩

end Exact

/-- A process in the root directory. -/
def inRoot (σ : FsState) : DirState where
  files := ⟨σ.opened rootDirSector, fun _ => none, 0⟩
  dirs := Function.update (fun _ => none) 0 (some ⟨σ.nextPtr, 0, 0⟩)
  nextDir := 1
  workDir := 0
  junk := fun _ _ => 0

/-- A disk with the directory `a` in the root and the directory `b` in `a`; the free map's file is in
sectors 0 and 6. -/
def nestedDisk : BlockSector → Sector := fun s =>
  if s = 0 then (newInodeDisk 4 false).setWord 0 6
  else if s = 1 then (newInodeDisk 20 false).setWord 0 2
  else if s = 2 then fun i =>
    ([3, 0, 0, 0, 97] ++ List.replicate 14 0 ++ [1] : List UInt8).getD i.val 0
  else if s = 3 then (newInodeDisk 20 true).setWord 0 4
  else if s = 4 then fun i =>
    ([5, 0, 0, 0, 98] ++ List.replicate 14 0 ++ [1] : List UInt8).getD i.val 0
  else newInodeDisk 0 true

/-- The free map's file is open, and nothing else. -/
def nestedFs : FsState :=
  { (fresh 16 nestedDisk).shift.enter freeMapSector with
    freeMap := (freeMapInit 16).setMultiple 2 5 true
    freeMapFile := some 0 }

theorem nestedFs_working :
    Working ⟨(inRoot nestedFs).fs, [⟨1, 1⟩, ⟨0, 0⟩], [], []⟩ 1 rootDirSector 0 (inRoot nestedFs) := by
  have hinit : TableReached ⟨fresh 16 nestedDisk, [], [], []⟩ := .init ⟨rfl, fun _ => rfl, rfl, rfl, rfl⟩
  have hmap := hinit.step (@TableStep.opened _ freeMapSector _ _ rfl)
  have hother := hmap.step (@TableStep.other _ nestedFs ⟨rfl, le_rfl, fun _ => rfl⟩)
  refine ⟨(hother.step (@TableStep.opened _ rootDirSector _ _ rfl)).inv, rfl, ⟨_, rfl, rfl⟩,
    List.mem_cons_self, Nat.one_pos, ?_, nofun, by decide, by decide⟩
  exact ⟨_, .short rfl (by decide) rfl ⟨rfl, rfl⟩ rfl (by decide) (by decide) (by decide)⟩

/-- **`system_chdir`** to `/a/b`. -/
theorem systemChdir_right_nested :
    Returns (systemChdir 5 (some 0) [47, 97, 47, 98]) (inRoot nestedFs)
      (ChdirRight rootDirSector 0 [47, 97, 47, 98] (inRoot nestedFs)) ∧
    ((systemChdir 5 (some 0) [47, 97, 47, 98]).run (inRoot nestedFs)).map (fun r => r.1.1) =
      some true := by
  have htrail : (inRoot nestedFs).fs.trail 2 rootDirSector [[97], [98]] = some (some [1, 3, 5]) := by
    decide +kernel
  refine ⟨(systemChdir_right nestedFs_working ⟨by decide, by decide⟩ (by decide)).2
    ⟨rfl, _, htrail, fun l hl s hs => ?_⟩, by decide +kernel⟩
  obtain rfl := Option.some.inj hl
  simp only [List.mem_cons, List.not_mem_nil, or_false] at hs
  rcases hs with rfl | rfl | rfl <;> decide +kernel

/-- A disk with a plain file `a` in the root directory. -/
def plainDisk : BlockSector → Sector := fun s =>
  if s = 1 then (newInodeDisk 20 false).setWord 0 2
  else if s = 2 then fun i =>
    ([3, 0, 0, 0, 97] ++ List.replicate 14 0 ++ [1] : List UInt8).getD i.val 0
  else newInodeDisk 0 false

theorem entryAt_plainDisk : entryAt plainDisk 1 [97] = some (some 3) := by decide +kernel

theorem systemChdir_plainDisk :
    ((systemChdir 2 (some 0) [97]).run (inRoot (fresh 1024 plainDisk))).map Prod.fst =
      some (true, some 2) := by decide +kernel

/-- **A plain file becomes the working directory.** -/
theorem systemChdir_wrong :
    ¬Returns (systemChdir 2 (some 0) [97]) (inRoot (fresh 1024 plainDisk))
      (ChdirRight rootDirSector 0 [97] (inRoot (fresh 1024 plainDisk))) := by
  rintro ⟨r, D', hrun, hright⟩
  have hr := systemChdir_plainDisk
  rw [hrun] at hr
  cases hr
  unfold ChdirRight at hright
  rw [if_pos rfl] at hright
  obtain ⟨s, d, hdenotes, -⟩ := hright
  have hparts : partsOf [97] = [[97]] := by decide
  rw [hparts] at hdenotes
  cases hdenotes with
  | part _ hentry hrest =>
    have hthree := Option.some.inj (hentry.symm.trans entryAt_plainDisk)
    cases hthree
    cases hrest with
    | here hdir => exact absurd hdir (by decide)

end Filesys
end CS162

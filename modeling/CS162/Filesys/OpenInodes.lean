/-
# The table of open inodes

`projects1-3/src/filesys/inode.c`, lines 488-561: `inode_open`, `inode_reopen`,
`inode_remove` and `inode_close`.

A `Table` is the state of the file system with the handles that were obtained
and not closed.  Each call is one step; anything else may happen in between, the
inodes' places, counts and removal marks apart (`TableStep`).  `TableInv` holds
in every run: the open inodes count their handles (`Basis.Counted`), an inode is
marked if `inode_remove` was called on it, and an inode that was marked and has no
handle left was released once.  The calls return, the last close of a removed inode where the
free map can be written (`Releasable`).  The main result is `openInodes_counted`.
-/

import CS162.Basis.RefCount
import CS162.Filesys.Frame
import CS162.Filesys.InodeWrite

namespace CS162
namespace Filesys

open CS162.Basis

/-- A `struct inode *` handed out, with the sector it was opened for. -/
abbrev InodeHandle := Handle InodePtr BlockSector

/-- The sector of the inode at an address, and how often it is open. -/
def FsState.cell (σ : FsState) (p : InodePtr) : Option (BlockSector × ℤ) :=
  (σ.inodes p).map fun inode => (inode.sector, inode.openCnt)

/-- The state with another inode at an address. -/
def FsState.put (σ : FsState) (p : InodePtr) (inode : Option Inode) : FsState :=
  { σ with inodes := Function.update σ.inodes p inode }

theorem FsState.cell_of_inode {σ : FsState} {p : InodePtr} {inode : Inode}
    (h : σ.inodes p = some inode) : σ.cell p = some (inode.sector, inode.openCnt) := by
  rw [FsState.cell, h]
  rfl

theorem FsState.inode_of_cell {σ : FsState} {p : InodePtr} {s : BlockSector} {n : ℤ}
    (h : σ.cell p = some (s, n)) :
    ∃ inode, σ.inodes p = some inode ∧ inode.sector = s ∧ inode.openCnt = n := by
  obtain ⟨inode, hinode, he⟩ := Option.map_eq_some_iff.1 h
  obtain ⟨rfl, rfl⟩ := Prod.mk.inj he
  exact ⟨inode, hinode, rfl, rfl⟩

@[simp] theorem FsState.put_openInodes (σ : FsState) (p : InodePtr) (inode : Option Inode) :
    (σ.put p inode).openInodes = σ.openInodes := rfl

@[simp] theorem FsState.put_freeMap (σ : FsState) (p : InodePtr) (inode : Option Inode) :
    (σ.put p inode).freeMap = σ.freeMap := rfl

@[simp] theorem FsState.put_nextPtr (σ : FsState) (p : InodePtr) (inode : Option Inode) :
    (σ.put p inode).nextPtr = σ.nextPtr := rfl

theorem FsState.put_self (σ : FsState) (p : InodePtr) (inode : Option Inode) :
    (σ.put p inode).inodes p = inode := by
  unfold FsState.put
  exact Function.update_self ..

theorem FsState.put_of_ne (σ : FsState) {p q : InodePtr} (inode : Option Inode) (h : q ≠ p) :
    (σ.put p inode).inodes q = σ.inodes q := by
  unfold FsState.put
  exact Function.update_of_ne h ..

/-! ### What the calls do -/

section Calls

variable {σ : FsState} {p : InodePtr} {inode : Inode}

/-- **`inode_reopen`** counts one more. -/
theorem run_inodeReopen (h : σ.inodes p = some inode) :
    (inodeReopen p).run σ =
      some ((), σ.put p (some { inode with openCnt := inode.openCnt + 1 })) := by
  unfold inodeReopen
  rw [run_bind_of_run (run_getInode h)]
  rfl

/-- **`inode_remove`** marks the inode. -/
theorem run_inodeRemove (h : σ.inodes p = some inode) :
    (inodeRemove p).run σ = some ((), σ.put p (some { inode with removed := true })) := by
  unfold inodeRemove
  rw [run_bind_of_run (run_getInode h)]
  rfl

/-- The state with a new inode for a sector in front of the open ones. -/
def FsState.enter (σ : FsState) (sector : BlockSector) : FsState :=
  { σ.put σ.nextPtr (some ⟨sector, 1, false, 0⟩) with
    openInodes := σ.nextPtr :: σ.openInodes
    nextPtr := σ.nextPtr + 1 }

/-- **`inode_open`** reopens an open inode of the sector, or enters a new one if
there is memory. -/
theorem inodeOpen_cases (σ : FsState) (sector : BlockSector) :
    (∃ p ∈ σ.openInodes, ∃ inode, σ.inodes p = some inode ∧ inode.sector = sector ∧
      (inodeOpen sector).run σ =
        some (some p, σ.put p (some { inode with openCnt := inode.openCnt + 1 }))) ∨
    (∀ p ∈ σ.openInodes, ∀ n, σ.cell p ≠ some (sector, n)) ∧
      (inodeOpen sector).run σ = if σ.memory 0 then some (some σ.nextPtr, σ.shift.enter sector)
        else some (none, σ.shift) := by
  cases hfind : σ.openInodes.find? fun p => (σ.inodes p).any fun inode => inode.sector == sector with
  | some p =>
    left
    have hany := List.find?_some hfind
    obtain ⟨inode, hinode, hsector⟩ := (Option.any_eq_true _ _).1 hany
    refine ⟨p, List.mem_of_find?_eq_some hfind, inode, hinode, eq_of_beq hsector, ?_⟩
    have hrun : (inodeOpen sector).run σ = (inodeReopen p >>= fun _ => pure (some p)).run σ := by
      unfold inodeOpen
      rw [run_bind_of_run (a := σ) (t := σ) rfl, hfind]
    rw [hrun, run_bind_of_run (run_inodeReopen hinode)]
    rfl
  | none =>
    right
    constructor
    · intro p hp n hcell
      obtain ⟨inode, hinode, hsector, -⟩ := FsState.inode_of_cell hcell
      have hno := List.find?_eq_none.1 hfind p hp
      rw [hinode, Option.any_some, hsector] at hno
      exact hno (beq_self_eq_true sector)
    · unfold inodeOpen
      rw [run_bind_of_run (a := σ) (t := σ) rfl, hfind]
      dsimp only
      rw [run_bind_of_run (run_alloc σ)]
      cases σ.memory 0 <;> rfl

/-- **`inode_close`** of an inode that stays open counts one less. -/
theorem run_inodeClose (h : σ.inodes p = some inode) (hopen : inode.openCnt ≠ 1) :
    (inodeClose p).run σ =
      some ((), σ.put p (some { inode with openCnt := inode.openCnt - 1 })) := by
  unfold inodeClose
  rw [run_bind_of_run (run_getInode h), run_bind_of_run (x := setInode p _) rfl,
    if_neg (by omega)]
  rfl

/-- The state in which `inode_close` releases an inode. -/
def FsState.leaving (σ : FsState) (p : InodePtr) (inode : Inode) : FsState :=
  { σ.put p (some { inode with openCnt := 0 }) with openInodes := σ.openInodes.erase p }

/-- **The last `inode_close`** takes the inode off the list and frees it; if it was
removed, it releases its sector before that. -/
theorem run_inodeClose_last (h : σ.inodes p = some inode) (hlast : inode.openCnt = 1) :
    (inodeClose p).run σ = if inode.removed then
        (freeMapRelease inode.sector 1 >>= fun _ => setInode p none).run (σ.leaving p inode)
      else some ((), (σ.leaving p inode).put p none) := by
  have hzero : inode.openCnt - 1 = 0 := by omega
  unfold inodeClose
  rw [run_bind_of_run (run_getInode h), run_bind_of_run (x := setInode p _) rfl, if_pos hzero,
    hzero, run_bind_of_run (x := modify _) rfl]
  by_cases hremoved : inode.removed = true
  · rw [if_pos hremoved, if_pos hremoved]
    rfl
  · rw [if_neg hremoved, if_neg hremoved]
    rfl

/-- The effect of the last `inode_close` on the open inodes and the free map. -/
structure Left (σ : FsState) (p : InodePtr) (inode : Inode) (σ' : FsState) : Prop where
  openInodes : σ'.openInodes = σ.openInodes.erase p
  gone : σ'.inodes p = none
  others : ∀ q ≠ p, σ'.inodes q = σ.inodes q
  nextPtr : σ'.nextPtr = σ.nextPtr
  taken : inode.removed = true → σ.freeMap.bits inode.sector.toNat = true
  freeMap : σ'.freeMap =
    if inode.removed then σ.freeMap.setMultiple inode.sector.toNat 1 false else σ.freeMap

/-- What the last `inode_close` does, if it returns. -/
theorem inodeClose_left (h : σ.inodes p = some inode) (hlast : inode.openCnt = 1) :
    Ensures (inodeClose p) σ fun _ σ' => Left σ p inode σ' := by
  intro a σ' hrun
  rw [run_inodeClose_last h hlast] at hrun
  cases hremoved : inode.removed with
  | false =>
    rw [hremoved, if_neg (by simp)] at hrun
    cases hrun
    refine ⟨rfl, FsState.put_self _ _ _, fun q hq => ?_, rfl, by simp [hremoved], ?_⟩
    · rw [FsState.put_of_ne _ _ hq]
      exact FsState.put_of_ne σ _ hq
    · rw [hremoved]
      rfl
  | true =>
    rw [hremoved, if_pos rfl] at hrun
    obtain ⟨_, σ₁, hrelease, hset⟩ := run_bind_cases hrun
    cases hset
    obtain ⟨hsame, hall, hmap⟩ := freeMapRelease_ensures _ _ _ _ _ hrelease
    refine ⟨hsame.openInodes, FsState.put_self _ _ _, fun q hq => ?_, hsame.nextPtr,
      fun _ => (Bitmap.all_one _ _).symm.trans hall, ?_⟩
    · have hput : (σ₁.put p none).inodes q = σ₁.inodes q := FsState.put_of_ne σ₁ none hq
      refine hput.trans ?_
      rw [hsame.inodes]
      exact FsState.put_of_ne σ _ hq
    · rw [hremoved]
      exact hmap

/-- The sector of the inode at `p` can be released: it is taken, and the free map's file is open, in
order and another one. -/
structure FsState.Releasable (σ : FsState) (p : InodePtr) (sector : BlockSector) : Prop where
  file : σ.freeMapFile ≠ none
  map : ∃ fm, FreeMapFile fm (some p) σ
  range : sector.toNat < σ.freeMap.bitCnt
  taken : σ.freeMap.bits sector.toNat = true

/-- What is in the inode besides does not matter. -/
theorem FsState.Releasable.put {s : BlockSector} (h : σ.Releasable p s) (inode : Inode) :
    (σ.put p (some inode)).Releasable p s := by
  obtain ⟨hfile, ⟨fm, hmap⟩, hrange, htaken⟩ := h
  refine ⟨hfile, ⟨fm, hmap.notHeld, fun q hq => ?_, fun hne => ?_⟩, hrange, htaken⟩
  · obtain ⟨j, hj, hrest⟩ := hmap.inode q hq
    have hne : q ≠ p := fun hqp => hmap.notHeld q hq (by rw [hqp])
    exact ⟨j, (FsState.put_of_ne σ _ hne).trans hj, hrest⟩
  · exact (hmap.file hne).congr fun _ _ => rfl

/-- **`inode_close` returns**, if it can release the sector where it has to. -/
theorem inodeClose_returns (h : σ.inodes p = some inode)
    (hr : inode.openCnt = 1 → inode.removed = true → σ.Releasable p inode.sector) :
    ∃ σ', (inodeClose p).run σ = some ((), σ') := by
  by_cases hlast : inode.openCnt = 1
  · have hrun := run_inodeClose_last h hlast
    cases hremoved : inode.removed with
    | false =>
      rw [hremoved, if_neg Bool.false_ne_true] at hrun
      exact ⟨_, hrun⟩
    | true =>
      rw [hremoved, if_pos rfl] at hrun
      obtain ⟨hfile, ⟨fm, hmap⟩, hrange, htaken⟩ := hr hlast hremoved
      -- the inode has left the list, and the free map's file is another one
      have hready : FreeMapFile fm none (σ.leaving p inode) := by
        refine ⟨by simp, fun q hq => ?_, fun _ => (hmap.file hfile).congr fun _ _ => rfl⟩
        obtain ⟨j, hj, hrest⟩ := hmap.inode q hq
        have hne : q ≠ p := fun hqp => hmap.notHeld q hq (by rw [hqp])
        exact ⟨j, (FsState.put_of_ne σ _ hne).trans hj, hrest⟩
      obtain ⟨_, σ₁, hrelease, -⟩ := hready.release hfile hrange htaken
      exact ⟨σ₁.put p none, hrun.trans (run_bind_of_run hrelease)⟩
  · exact ⟨_, run_inodeClose h hlast⟩

end Calls

/-! ### Runs -/

/-- The file system, the handles that are outstanding, and two records of the
calls: the inodes `inode_remove` was called on, and those whose `inode_close`
changed the bit of their sector in the free map. -/
structure Table where
  fs : FsState
  handles : List InodeHandle
  removals : List InodePtr
  releases : List InodePtr

inductive TableCall where
  | open (sector : BlockSector)
  | reopen (h : InodeHandle)
  | remove (h : InodeHandle)
  | close (h : InodeHandle)
  /-- Not one of the four calls. -/
  | other

/-- What the four calls keep in an inode is as it was. -/
structure TableKept (σ σ' : FsState) : Prop where
  openInodes : σ'.openInodes = σ.openInodes
  nextPtr : σ.nextPtr ≤ σ'.nextPtr
  inodes : ∀ p, (σ'.inodes p).map (fun i => (i.sector, i.openCnt, i.removed)) =
    (σ.inodes p).map fun i => (i.sector, i.openCnt, i.removed)

/-- One call, on a handle that is outstanding, or another step of the kernel. -/
inductive TableStep (T : Table) : TableCall → Table → Prop where
  | opened {sector p σ'} (hrun : (inodeOpen sector).run T.fs = some (some p, σ')) :
      TableStep T (.open sector) { T with fs := σ', handles := ⟨p, sector⟩ :: T.handles }
  | failed {sector σ'} (hrun : (inodeOpen sector).run T.fs = some (none, σ')) :
      TableStep T (.open sector) { T with fs := σ' }
  | reopened {h σ'} (hmem : h ∈ T.handles) (hrun : (inodeReopen h.ptr).run T.fs = some ((), σ')) :
      TableStep T (.reopen h) { T with fs := σ', handles := h :: T.handles }
  | removed {h σ'} (hmem : h ∈ T.handles) (hrun : (inodeRemove h.ptr).run T.fs = some ((), σ')) :
      TableStep T (.remove h) { T with fs := σ', removals := h.ptr :: T.removals }
  | closed {h σ'} (hmem : h ∈ T.handles) (hrun : (inodeClose h.ptr).run T.fs = some ((), σ')) :
      TableStep T (.close h) { T with
        fs := σ'
        handles := T.handles.erase h
        releases :=
          if σ'.freeMap.bits h.key.toNat = T.fs.freeMap.bits h.key.toNat then T.releases
          else h.ptr :: T.releases }
  | other {σ'} (hkept : TableKept T.fs σ') : TableStep T .other { T with fs := σ' }

/-- `inode_init`: there is no open inode. -/
structure Table.Init (T : Table) : Prop where
  openInodes : T.fs.openInodes = []
  inodes : ∀ p, T.fs.inodes p = none
  handles : T.handles = []
  removals : T.removals = []
  releases : T.releases = []

inductive TableReached : Table → Prop where
  | init {T} (h : T.Init) : TableReached T
  | step {T c T'} (h : TableReached T) (hs : TableStep T c T') : TableReached T'

/-- The invariant of the table of open inodes. -/
structure TableInv (T : Table) : Prop where
  counted : Counted T.fs.openInodes T.fs.cell T.handles
  fresh : ∀ p, T.fs.nextPtr ≤ p → T.fs.inodes p = none
  marked : ∀ p ∈ T.fs.openInodes, ∀ inode, T.fs.inodes p = some inode →
    (inode.removed = true ↔ p ∈ T.removals)
  removals : ∀ p ∈ T.removals, p < T.fs.nextPtr
  releases : ∀ p, T.releases.count p = if p ∈ T.removals ∧ p ∉ T.fs.openInodes then 1 else 0

namespace TableInv

variable {T : Table} {p : InodePtr} {inode : Inode} {g : InodeHandle} {σ' : FsState}

theorem of_init (h : T.Init) : TableInv T where
  counted := by
    rw [h.openInodes, h.handles]
    exact counted_nil _
  fresh p _ := h.inodes p
  marked p hp := by
    rw [h.openInodes] at hp
    cases hp
  removals p hp := by
    rw [h.removals] at hp
    cases hp
  releases p := by
    rw [h.releases, h.removals]
    simp

/-- The cells of the other inodes stay when one inode is changed. -/
theorem cell_put (p : InodePtr) (inode' : Option Inode) : ∀ q ∈ T.fs.openInodes, q ≠ p →
    (T.fs.put p inode').cell q = T.fs.cell q := by
  intro q _ hq
  rw [FsState.cell, FsState.cell, FsState.put_of_ne _ _ hq]

variable (h : TableInv T)
include h

theorem perm {hs : List InodeHandle} (hperm : T.handles.Perm hs) :
    TableInv { T with handles := hs } where
  counted := h.counted.perm hperm
  fresh := h.fresh
  marked := h.marked
  removals := h.removals
  releases := h.releases

/-- The inode of a handle. -/
theorem inode_of_handle (hg : g ∈ T.handles) :
    g.ptr ∈ T.fs.openInodes ∧ ∃ inode, T.fs.inodes g.ptr = some inode ∧ inode.sector = g.key := by
  obtain ⟨hp, n, hn⟩ := h.counted.handle g hg
  obtain ⟨inode, hinode, hsector, -⟩ := FsState.inode_of_cell hn
  exact ⟨hp, inode, hinode, hsector⟩

/-- An open inode was allocated. -/
theorem lt_nextPtr (hp : p ∈ T.fs.openInodes) : p < T.fs.nextPtr := by
  by_contra hlt
  obtain ⟨k, hk⟩ := h.counted.counts p hp
  obtain ⟨inode, hinode, -⟩ := FsState.inode_of_cell hk
  rw [h.fresh p (not_lt.1 hlt)] at hinode
  cases hinode

/-- The next address is not an open inode's. -/
theorem nextPtr_not_mem : T.fs.nextPtr ∉ T.fs.openInodes := fun hmem =>
  lt_irrefl _ (h.lt_nextPtr hmem)

/-- A step that keeps the places, counts and marks of the inodes. -/
theorem kept (hk : TableKept T.fs σ') : TableInv { T with fs := σ' } := by
  have hinode : ∀ {q inode'}, σ'.inodes q = some inode' → ∃ inode, T.fs.inodes q = some inode ∧
      inode.sector = inode'.sector ∧ inode.openCnt = inode'.openCnt ∧
      inode.removed = inode'.removed := by
    intro q inode' hq
    have hmap := hk.inodes q
    rw [hq] at hmap
    obtain ⟨inode, hinode, he⟩ := Option.map_eq_some_iff.1 hmap.symm
    simp only [Prod.mk.injEq] at he
    exact ⟨inode, hinode, he⟩
  have hcell : ∀ q, σ'.cell q = T.fs.cell q := by
    intro q
    cases hq : σ'.inodes q with
    | none =>
      have hmap := hk.inodes q
      rw [hq] at hmap
      rw [FsState.cell, FsState.cell, hq, Option.map_eq_none_iff.1 hmap.symm]
    | some inode' =>
      obtain ⟨inode, hold, hsector, hcnt, -⟩ := hinode hq
      rw [FsState.cell_of_inode hq, FsState.cell_of_inode hold, hsector, hcnt]
  refine ⟨?_, fun q hq => ?_, fun q hq inode' hinode' => ?_, fun q hq => ?_, fun q => ?_⟩
  · show Counted σ'.openInodes σ'.cell T.handles
    rw [hk.openInodes]
    exact h.counted.congr fun q _ => hcell q
  · have hmap := hk.inodes q
    rw [h.fresh q (hk.nextPtr.trans hq)] at hmap
    exact Option.map_eq_none_iff.1 hmap
  · obtain ⟨inode, hold, -, -, hremoved⟩ := hinode hinode'
    rw [← hremoved]
    exact h.marked q (hk.openInodes ▸ hq) inode hold
  · exact (h.removals q hq).trans_le hk.nextPtr
  · show T.releases.count q = if q ∈ T.removals ∧ q ∉ σ'.openInodes then 1 else 0
    rw [hk.openInodes]
    exact h.releases q

/-- A new inode. -/
theorem entered {sector : BlockSector}
    (hnone : ∀ p ∈ T.fs.openInodes, ∀ n, T.fs.cell p ≠ some (sector, n)) :
    TableInv { T with
      fs := T.fs.shift.enter sector
      handles := ⟨T.fs.nextPtr, sector⟩ :: T.handles } := by
  have hnew : (T.fs.shift.enter sector).inodes T.fs.nextPtr = some ⟨sector, 1, false, 0⟩ :=
    FsState.put_self T.fs.shift _ _
  have hold : ∀ {q}, q ≠ T.fs.nextPtr → (T.fs.shift.enter sector).inodes q = T.fs.inodes q :=
    fun hq => FsState.put_of_ne T.fs.shift _ hq
  have hnot : T.fs.nextPtr ∉ T.removals := fun hmem => lt_irrefl _ (h.removals _ hmem)
  refine ⟨?_, fun q hq => ?_, fun q hq inode hinode => ?_, fun q hq => ?_, fun q => ?_⟩
  · refine h.counted.insert h.nextPtr_not_mem hnone ?_ fun q hq => ?_
    · exact FsState.cell_of_inode hnew
    · rw [FsState.cell, hold (h.lt_nextPtr hq).ne]
      rfl
  · have hlt : T.fs.nextPtr + 1 ≤ q := hq
    rw [hold (Nat.lt_of_succ_le hlt).ne']
    exact h.fresh q (Nat.le_of_succ_le hlt)
  · rcases List.mem_cons.1 hq with rfl | hq
    · have he : (⟨sector, 1, false, 0⟩ : Inode) = inode := Option.some.inj (hnew.symm.trans hinode)
      subst he
      exact ⟨fun hfalse => (Bool.false_ne_true hfalse).elim, fun hmem => (hnot hmem).elim⟩
    · exact h.marked q hq inode (hold (h.lt_nextPtr hq).ne ▸ hinode)
  · exact Nat.lt_succ_of_lt (h.removals q hq)
  · show T.releases.count q =
      if q ∈ T.removals ∧ q ∉ T.fs.nextPtr :: T.fs.openInodes then 1 else 0
    rw [h.releases]
    congr 1
    refine propext (and_congr_right fun hq => ?_)
    rw [List.mem_cons, not_or, and_iff_right (h.removals q hq).ne]

/-- A change of one open inode. -/
theorem put {inode' : Inode} {handles : List InodeHandle} {removals : List InodePtr}
    (hp : p ∈ T.fs.openInodes)
    (hcounted : Counted T.fs.openInodes (T.fs.put p (some inode')).cell handles)
    (hmarked : inode'.removed = true ↔ p ∈ removals)
    (hremovals : ∀ q ≠ p, q ∈ removals ↔ q ∈ T.removals) :
    TableInv { T with
      fs := T.fs.put p (some inode'), handles := handles, removals := removals } := by
  refine ⟨hcounted, fun q hq => ?_, fun q hq inode hinode => ?_, fun q hq => ?_, fun q => ?_⟩
  · have hne : q ≠ p := fun he => lt_irrefl _ ((h.lt_nextPtr hp).trans_le (he ▸ hq))
    exact (FsState.put_of_ne T.fs _ hne).trans (h.fresh q hq)
  · by_cases he : q = p
    · subst he
      obtain rfl := Option.some.inj ((FsState.put_self T.fs _ _).symm.trans hinode)
      exact hmarked
    · rw [hremovals q he]
      exact h.marked q hq inode ((FsState.put_of_ne T.fs _ he).symm.trans hinode)
  · by_cases he : q = p
    · exact he.trans_lt (h.lt_nextPtr hp)
    · exact h.removals q ((hremovals q he).1 hq)
  · show T.releases.count q = if q ∈ removals ∧ q ∉ T.fs.openInodes then 1 else 0
    rw [h.releases]
    by_cases he : q = p
    · rw [if_neg fun hq => hq.2 (he ▸ hp), if_neg fun hq => hq.2 (he ▸ hp)]
    · simp only [hremovals q he]

/-- One more handle on an open inode. -/
theorem reopened {sector : BlockSector} (hp : p ∈ T.fs.openInodes)
    (hinode : T.fs.inodes p = some inode) (hsector : inode.sector = sector) :
    TableInv { T with
      fs := T.fs.put p (some { inode with openCnt := inode.openCnt + 1 })
      handles := ⟨p, sector⟩ :: T.handles } := by
  subst hsector
  refine h.put hp ?_ (h.marked p hp inode hinode) fun _ _ => Iff.rfl
  exact h.counted.reopen hp (FsState.cell_of_inode hinode)
    (FsState.cell_of_inode (FsState.put_self _ _ _)) (cell_put p _)

/-- An open inode is marked. -/
theorem removed (hp : p ∈ T.fs.openInodes) (hinode : T.fs.inodes p = some inode) :
    TableInv { T with
      fs := T.fs.put p (some { inode with removed := true })
      removals := p :: T.removals } := by
  have hself := FsState.cell_of_inode
    (FsState.put_self T.fs p (some { inode with removed := true }))
  refine h.put hp ?_ (iff_of_true rfl List.mem_cons_self) fun q hq => ?_
  · refine h.counted.congr fun q hq => ?_
    by_cases he : q = p
    · rw [he, FsState.cell_of_inode hinode]
      exact hself
    · exact cell_put p _ q hq he
  · rw [List.mem_cons, or_iff_right hq]

/-- A handle is closed, not the last one. -/
theorem dropped (hg : g ∈ T.handles) (hinode : T.fs.inodes g.ptr = some inode)
    (hopen : inode.openCnt ≠ 1) :
    TableInv { T with
      fs := T.fs.put g.ptr (some { inode with openCnt := inode.openCnt - 1 })
      handles := T.handles.erase g } := by
  have hp := (h.inode_of_handle hg).1
  refine h.put hp ?_ (h.marked _ hp inode hinode) fun _ _ => Iff.rfl
  exact h.counted.drop hg (FsState.cell_of_inode hinode) hopen
    (FsState.cell_of_inode (FsState.put_self _ _ _)) (cell_put g.ptr _)

/-- The bit of the sector after the last handle is closed. -/
theorem left_bit (hinode : T.fs.inodes g.ptr = some inode) (hg : g ∈ T.handles)
    (hl : Left T.fs g.ptr inode σ') :
    σ'.freeMap.bits g.key.toNat = T.fs.freeMap.bits g.key.toNat ↔ g.ptr ∉ T.removals := by
  obtain ⟨hp, inode', hinode', hkey⟩ := h.inode_of_handle hg
  obtain rfl := Option.some.inj (hinode.symm.trans hinode')
  rw [← h.marked _ hp inode hinode, hl.freeMap, ← hkey]
  cases hremoved : inode.removed with
  | false => simp
  | true =>
    rw [if_pos rfl, Bitmap.bits_setMultiple_one, if_pos rfl, hl.taken hremoved]
    simp

/-- The last handle on an inode is closed. -/
theorem left (hg : g ∈ T.handles) (hinode : T.fs.inodes g.ptr = some inode)
    (hlast : inode.openCnt = 1) (hl : Left T.fs g.ptr inode σ') :
    TableInv { T with
      fs := σ'
      handles := T.handles.erase g
      releases :=
        if σ'.freeMap.bits g.key.toNat = T.fs.freeMap.bits g.key.toNat then T.releases
        else g.ptr :: T.releases } := by
  have hp := (h.inode_of_handle hg).1
  have hmem : ∀ q, q ∈ σ'.openInodes ↔ q ≠ g.ptr ∧ q ∈ T.fs.openInodes := fun q => by
    rw [hl.openInodes]
    exact h.counted.nodup.mem_erase_iff
  refine ⟨?_, fun q hq => ?_, fun q hq inode' hinode' => ?_, fun q hq => ?_, fun q => ?_⟩
  · show Counted σ'.openInodes σ'.cell (T.handles.erase g)
    have hcell := FsState.cell_of_inode hinode
    rw [hlast] at hcell
    rw [hl.openInodes]
    refine h.counted.last hg hcell fun q _ hq => ?_
    rw [FsState.cell, FsState.cell, hl.others q hq]
  · by_cases he : q = g.ptr
    · exact he ▸ hl.gone
    · exact (hl.others q he).trans (h.fresh q (hl.nextPtr ▸ hq))
  · obtain ⟨hne, hq⟩ := (hmem q).1 hq
    exact h.marked q hq inode' ((hl.others q hne).symm.trans hinode')
  · exact (h.removals q hq).trans_eq hl.nextPtr.symm
  · show List.count q (if σ'.freeMap.bits g.key.toNat = T.fs.freeMap.bits g.key.toNat then T.releases
      else g.ptr :: T.releases) = if q ∈ T.removals ∧ q ∉ σ'.openInodes then 1 else 0
    have hold := h.releases q
    by_cases he : q = g.ptr
    · subst he
      rw [if_neg fun hq => hq.2 hp] at hold
      have hgone : g.ptr ∉ σ'.openInodes := fun hq => ((hmem _).1 hq).1 rfl
      by_cases hremoved : g.ptr ∈ T.removals
      · rw [if_neg fun hbit => (h.left_bit hinode hg hl).1 hbit hremoved, List.count_cons_self,
          hold, if_pos ⟨hremoved, hgone⟩]
      · rw [if_pos ((h.left_bit hinode hg hl).2 hremoved), hold, if_neg fun hq => hremoved hq.1]
    · have hcount : List.count q (if σ'.freeMap.bits g.key.toNat = T.fs.freeMap.bits g.key.toNat
          then T.releases else g.ptr :: T.releases) = T.releases.count q := by
        split
        · rfl
        · exact List.count_cons_of_ne (Ne.symm he)
      rw [hcount, hold]
      simp only [hmem, ne_eq, he, not_false_eq_true, true_and]

/-- **Every step keeps the invariant.** -/
theorem step {c : TableCall} {T' : Table} (hs : TableStep T c T') : TableInv T' := by
  cases hs with
  | @opened sector p σ' hrun =>
    rcases inodeOpen_cases T.fs sector with ⟨q, hq, inode, hinode, hsector, hopen⟩ | ⟨hnone, hopen⟩
    · rw [hopen] at hrun
      cases hrun
      exact h.reopened hq hinode hsector
    · rw [hopen] at hrun
      cases hmem : T.fs.memory 0 with
      | false =>
        rw [hmem] at hrun
        cases hrun
      | true =>
        rw [hmem] at hrun
        cases hrun
        exact h.entered hnone
  | @failed sector σ' hrun =>
    rcases inodeOpen_cases T.fs sector with ⟨q, hq, inode, hinode, hsector, hopen⟩ | ⟨hnone, hopen⟩
    · rw [hopen] at hrun
      cases hrun
    · rw [hopen] at hrun
      cases hmem : T.fs.memory 0 with
      | false =>
        rw [hmem] at hrun
        cases hrun
        exact h.kept ⟨rfl, le_rfl, fun _ => rfl⟩
      | true =>
        rw [hmem] at hrun
        cases hrun
  | @reopened g σ' hg hrun =>
    obtain ⟨hp, inode, hinode, hkey⟩ := h.inode_of_handle hg
    rw [run_inodeReopen hinode] at hrun
    cases hrun
    exact h.reopened hp hinode hkey
  | @removed g σ' hg hrun =>
    obtain ⟨hp, inode, hinode, hkey⟩ := h.inode_of_handle hg
    rw [run_inodeRemove hinode] at hrun
    cases hrun
    exact h.removed hp hinode
  | @closed g σ' hg hrun =>
    obtain ⟨hp, inode, hinode, hkey⟩ := h.inode_of_handle hg
    by_cases hlast : inode.openCnt = 1
    · exact h.left hg hinode hlast (inodeClose_left hinode hlast _ _ hrun)
    · rw [run_inodeClose hinode hlast] at hrun
      cases hrun
      simp only [FsState.put_freeMap, if_true]
      exact h.dropped hg hinode hlast
  | other hkept => exact h.kept hkept

end TableInv

/-- The table as `inode_open` and `inode_close` are to keep it. -/
structure TableSpec (T : Table) : Prop where
  once : ∀ sector, (T.fs.openInodes.filter fun p =>
    (T.fs.inodes p).any fun inode => inode.sector == sector).length ≤ 1
  entry_iff : ∀ sector, (∃ p ∈ T.fs.openInodes, ∃ inode, T.fs.inodes p = some inode ∧
    inode.sector = sector) ↔ ∃ h ∈ T.handles, h.key = sector
  openCnt : ∀ p ∈ T.fs.openInodes, ∀ inode, T.fs.inodes p = some inode →
    inode.openCnt = T.handles.countP (fun h => h.key = inode.sector) ∧ 0 < inode.openCnt
  share : ∀ h ∈ T.handles, ∃ p ∈ T.fs.openInodes, ∃ inode, T.fs.inodes p = some inode ∧
    inode.sector = h.key ∧ ∀ h' ∈ T.handles, h'.key = h.key → h'.ptr = p

/-- The step is the close of the last handle on an inode that was removed. -/
def TableCall.Releases (T : Table) (c : TableCall) (h : InodeHandle) : Prop :=
  c = .close h ∧ h.ptr ∈ T.removals ∧ ∀ h' ∈ T.handles.erase h, h'.key ≠ h.key

/-- What a call of the four does to the free map. -/
structure ReleaseSpec (T : Table) (c : TableCall) (T' : Table) : Prop where
  release : ∀ h, c.Releases T h → T.fs.freeMap.bits h.key.toNat = true ∧
    T'.fs.freeMap = T.fs.freeMap.setMultiple h.key.toNat 1 false
  keep : (∀ h, ¬c.Releases T h) → T'.fs.freeMap = T.fs.freeMap

namespace TableInv

variable {T T' : Table} {c : TableCall} {g : InodeHandle}

/-- The invariant gives what is said of the table. -/
theorem spec (h : TableInv T) : TableSpec T where
  once sector := by
    have hnodup := h.counted.nodup.filter fun p =>
      (T.fs.inodes p).any fun inode => inode.sector == sector
    have hcell : ∀ p ∈ T.fs.openInodes.filter fun p =>
        (T.fs.inodes p).any fun inode => inode.sector == sector,
        p ∈ T.fs.openInodes ∧ ∃ n, T.fs.cell p = some (sector, n) := by
      intro p hp
      obtain ⟨hp, hany⟩ := List.mem_filter.1 hp
      obtain ⟨inode, hinode, hsector⟩ := (Option.any_eq_true _ _).1 hany
      exact ⟨hp, inode.openCnt, by rw [FsState.cell_of_inode hinode, eq_of_beq hsector]⟩
    generalize T.fs.openInodes.filter (fun p =>
      (T.fs.inodes p).any fun inode => inode.sector == sector) = found at hnodup hcell ⊢
    match found with
    | [] => exact Nat.zero_le 1
    | [p] => exact le_rfl
    | p :: q :: rest =>
      obtain ⟨hp, m, hm⟩ := hcell p List.mem_cons_self
      obtain ⟨hq, n, hn⟩ := hcell q (List.mem_cons_of_mem p List.mem_cons_self)
      have he := h.counted.unique p hp q hq sector m n hm hn
      exact absurd (he ▸ List.mem_cons_self) (List.nodup_cons.1 hnodup).1
  entry_iff sector := by
    rw [← h.counted.exists_iff sector]
    constructor
    · rintro ⟨p, hp, inode, hinode, rfl⟩
      exact ⟨p, hp, _, FsState.cell_of_inode hinode⟩
    · rintro ⟨p, hp, n, hcell⟩
      obtain ⟨inode, hinode, hsector, -⟩ := FsState.inode_of_cell hcell
      exact ⟨p, hp, inode, hinode, hsector⟩
  openCnt p hp inode hinode := by
    have hcell := FsState.cell_of_inode hinode
    have hpos := h.counted.held p hp
    refine ⟨h.counted.count_key hp hcell, ?_⟩
    rw [h.counted.count_eq hp hcell]
    omega
  share g hg := by
    obtain ⟨hp, inode, hinode, hkey⟩ := h.inode_of_handle hg
    exact ⟨g.ptr, hp, inode, hinode, hkey, fun g' hg' he => h.counted.share hg' hg he⟩

/-- A handle is the last one on its sector when the count of its inode is one. -/
theorem last_iff (h : TableInv T) (hg : g ∈ T.handles) {inode : Inode}
    (hinode : T.fs.inodes g.ptr = some inode) :
    inode.openCnt = 1 ↔ ∀ g' ∈ T.handles.erase g, g'.key ≠ g.key := by
  have hp := (h.inode_of_handle hg).1
  have hcount := h.counted.count_eq hp (FsState.cell_of_inode hinode)
  have herase := refs_erase hg g.ptr
  rw [if_pos rfl] at herase
  have hnone : refs (T.handles.erase g) g.ptr = 0 ↔ ∀ g' ∈ T.handles.erase g, g'.key ≠ g.key := by
    unfold refs
    rw [List.countP_eq_zero]
    refine forall₂_congr fun g' hg' => ?_
    obtain ⟨-, n, hn⟩ := h.counted.handle g hg
    rw [decide_eq_true_iff]
    exact not_congr (h.counted.key_iff (List.mem_of_mem_erase hg') hp hn)
  rw [← hnone]
  omega

/-- **The sector of a removed inode is released at the last close**, and no other
call changes the free map. -/
theorem release (h : TableInv T) (hs : TableStep T c T') (hc : c ≠ .other) :
    ReleaseSpec T c T' := by
  cases hs with
  | @opened sector p σ' hrun =>
    refine ⟨fun g hg => ?_, fun _ => ?_⟩
    · cases hg.1
    · rcases inodeOpen_cases T.fs sector with ⟨q, hq, inode, -, -, hopen⟩ | ⟨-, hopen⟩
      · rw [hopen] at hrun
        cases hrun
        rfl
      · rw [hopen] at hrun
        split at hrun <;> cases hrun
        rfl
  | @failed sector σ' hrun =>
    refine ⟨fun g hg => ?_, fun _ => ?_⟩
    · cases hg.1
    · rcases inodeOpen_cases T.fs sector with ⟨q, hq, inode, -, -, hopen⟩ | ⟨-, hopen⟩
      · rw [hopen] at hrun
        cases hrun
      · rw [hopen] at hrun
        split at hrun <;> cases hrun
        rfl
  | @reopened g σ' hg hrun =>
    refine ⟨fun g hg => ?_, fun _ => ?_⟩
    · cases hg.1
    · obtain ⟨-, inode, hinode, -⟩ := h.inode_of_handle hg
      rw [run_inodeReopen hinode] at hrun
      cases hrun
      rfl
  | @removed g σ' hg hrun =>
    refine ⟨fun g hg => ?_, fun _ => ?_⟩
    · cases hg.1
    · obtain ⟨-, inode, hinode, -⟩ := h.inode_of_handle hg
      rw [run_inodeRemove hinode] at hrun
      cases hrun
      rfl
  | @closed g σ' hg hrun =>
    obtain ⟨hp, inode, hinode, hkey⟩ := h.inode_of_handle hg
    have hmarked := h.marked _ hp inode hinode
    by_cases hlast : inode.openCnt = 1
    · have hl := inodeClose_left hinode hlast _ _ hrun
      constructor
      · rintro _ ⟨hcall, hremoved, -⟩
        cases hcall
        have hmap := hl.freeMap
        rw [if_pos (hmarked.2 hremoved), hkey] at hmap
        exact ⟨hkey ▸ hl.taken (hmarked.2 hremoved), hmap⟩
      · intro hno
        have hmap := hl.freeMap
        rw [if_neg fun hremoved =>
          hno g ⟨rfl, hmarked.1 hremoved, (h.last_iff hg hinode).1 hlast⟩] at hmap
        exact hmap
    · rw [run_inodeClose hinode hlast] at hrun
      cases hrun
      refine ⟨?_, fun _ => rfl⟩
      rintro _ ⟨hcall, -, hlast'⟩
      cases hcall
      exact absurd ((h.last_iff hg hinode).2 hlast') hlast
  | other hkept => exact absurd rfl hc

end TableInv

theorem TableReached.inv {T : Table} (h : TableReached T) : TableInv T := by
  induction h with
  | init h => exact .of_init h
  | step _ hs ih => exact ih.step hs

/-- The calls on outstanding handles return: the last close of a removed inode if its sector can be
released. -/
structure TableReturns (T : Table) : Prop where
  opens : ∀ sector, ∃ T', TableStep T (.open sector) T'
  reopens : ∀ g ∈ T.handles, ∃ T', TableStep T (.reopen g) T'
  removes : ∀ g ∈ T.handles, ∃ T', TableStep T (.remove g) T'
  closes : ∀ g ∈ T.handles, ((TableCall.close g).Releases T g → T.fs.Releasable g.ptr g.key) →
    ∃ T', TableStep T (.close g) T'

/-- The calls on outstanding handles return. -/
theorem TableInv.returns {T : Table} (h : TableInv T) : TableReturns T := by
  constructor
  · intro sector
    rcases inodeOpen_cases T.fs sector with ⟨q, hq, inode, -, -, hopen⟩ | ⟨-, hopen⟩
    · exact ⟨_, .opened hopen⟩
    · split at hopen
      · exact ⟨_, .opened hopen⟩
      · exact ⟨_, .failed hopen⟩
  · intro g hg
    obtain ⟨-, inode, hinode, -⟩ := h.inode_of_handle hg
    exact ⟨_, .reopened hg (run_inodeReopen hinode)⟩
  · intro g hg
    obtain ⟨-, inode, hinode, -⟩ := h.inode_of_handle hg
    exact ⟨_, .removed hg (run_inodeRemove hinode)⟩
  · intro g hg hr
    obtain ⟨hp, inode, hinode, hkey⟩ := h.inode_of_handle hg
    obtain ⟨σ', hrun⟩ := inodeClose_returns hinode fun hlast hremoved => hkey ▸
      hr ⟨rfl, (h.marked _ hp inode hinode).1 hremoved, (h.last_iff hg hinode).1 hlast⟩
    exact ⟨_, .closed hg hrun⟩

/-- **The table of open inodes counts the handles**, in every run of `inode_open`,
`inode_reopen`, `inode_remove` and `inode_close`.  A sector has at most one open
inode, it has one exactly while a handle for it is outstanding, the inode's count is
the number of these handles and they all point to it.  The sector of a removed
inode is released once, at the close of the last handle, and no other of the calls
changes the free map.  The calls return. -/
theorem openInodes_counted {T : Table} (h : TableReached T) :
    TableSpec T ∧
      (∀ p, T.releases.count p =
        if p ∈ T.removals ∧ ∀ g ∈ T.handles, g.ptr ≠ p then 1 else 0) ∧
      (∀ c T', TableStep T c T' → c ≠ .other → ReleaseSpec T c T') ∧ TableReturns T := by
  have hinv := h.inv
  refine ⟨hinv.spec, fun p => ?_, fun c T' hs hc => hinv.release hs hc, hinv.returns⟩
  have hopen : p ∉ T.fs.openInodes ↔ ∀ g ∈ T.handles, g.ptr ≠ p := by
    constructor
    · rintro hp g hg rfl
      exact hp (hinv.counted.handle g hg).1
    · intro hno hp
      obtain ⟨g, hg, he⟩ := refs_pos.1 (hinv.counted.held p hp)
      exact hno g hg he
  rw [hinv.releases]
  simp only [hopen]

/-- A device before anything is opened, with the free map on it: its inode in sector 0, its bytes in
sector 2. -/
def quietFs : FsState where
  store := Function.update (fun _ => Sector.zero) freeMapSector ((newInodeDisk 4 false).setWord 0 2)
  freeMap := (freeMapInit 16).setMultiple 2 4 true
  freeMapFile := none
  inodes := fun _ => none
  openInodes := []
  memory := fun _ => true
  nextPtr := 0

/-- The free map's file is open, sector 5 is open twice and removed, and one handle is closed. -/
theorem quietFs_reached : ∃ T, TableReached T ∧ T.fs.Releasable 1 5 ∧ T.handles = [⟨1, 5⟩, ⟨0, 0⟩] ∧
    T.removals = [1] := by
  have hinit : TableReached ⟨quietFs, [], [], []⟩ := .init ⟨rfl, fun _ => rfl, rfl, rfl, rfl⟩
  have hmap := hinit.step (@TableStep.opened _ freeMapSector _ _ rfl)
  have hother := hmap.step (@TableStep.other _ { quietFs.shift.enter freeMapSector with
    freeMapFile := some 0 } ⟨rfl, le_rfl, fun _ => rfl⟩)
  have hopen := hother.step (@TableStep.opened _ 5 _ _ rfl)
  have htwice := hopen.step (.reopened (h := ⟨1, 5⟩) List.mem_cons_self rfl)
  have hremoved := htwice.step (.removed (h := ⟨1, 5⟩) List.mem_cons_self rfl)
  refine ⟨_, hremoved.step (.closed (h := ⟨1, 5⟩) List.mem_cons_self rfl),
    ⟨nofun, ?_, by decide, by decide⟩, rfl, rfl⟩
  exact ⟨_, .short rfl (by decide) rfl ⟨rfl, rfl⟩ rfl (by decide) (by decide) (by decide)⟩

/-- **The last close of a removed inode** returns and releases its sector, once. -/
theorem openInodes_counted_removed : ∃ T T', TableStep T (.close ⟨1, 5⟩) T' ∧
    T'.fs.freeMap = T.fs.freeMap.setMultiple 5 1 false ∧ T'.releases.count 1 = 1 ∧ TableSpec T' := by
  obtain ⟨T, hreached, hready, hhandles, hremovals⟩ := quietFs_reached
  obtain ⟨-, -, hrelease, hreturns⟩ := openInodes_counted hreached
  have hlast : (TableCall.close ⟨1, 5⟩).Releases T ⟨1, 5⟩ := by
    refine ⟨rfl, ?_, ?_⟩
    · rw [hremovals]
      exact List.mem_singleton_self _
    · rw [hhandles]
      decide
  have hmem : ⟨1, 5⟩ ∈ T.handles := hhandles ▸ List.mem_cons_self
  obtain ⟨T', hstep⟩ := hreturns.closes _ hmem fun _ => hready
  obtain ⟨hspec, hcount, -⟩ := openInodes_counted (hreached.step hstep)
  refine ⟨T, T', hstep, ((hrelease _ _ hstep nofun).release _ hlast).2, ?_, hspec⟩
  cases hstep with
  | closed =>
    refine (hcount 1).trans (if_pos ⟨hlast.2.1, ?_⟩)
    dsimp only
    rw [hhandles]
    decide

end Filesys
end CS162

/-
# What a failed `filesys_create` leaves

`projects1-3/src/filesys/filesys.c`, lines 40-107 (`traverse_path` and `filesys_create`).

`walk` is how far `traverse_path` comes, by what the disk says.  Where it stops, the directories that
were opened on the way are closed, and so is the root directory, which `filesys_create` opens first.
Where it comes to the end, it overwrites the pointer to the root directory, which stays open whatever
follows.  So a call that fails leaves no trace where `traverse_path` stops; and where the root
directory got no memory to be opened, and the call gives up before it takes a sector
(`filesysCreate_traces`).
-/

import CS162.Filesys.ChdirWalk
import CS162.Filesys.FreeMap

namespace CS162
namespace Filesys

open CS162.Basis

/-! ### How far `traverse_path` comes -/

/-- Whether `inode_open` gets memory if it needs any, from the request `k` on, and the next request.
Inodes of the sectors `held` are open besides those that are open in `σ`. -/
def FsState.opening (σ : FsState) (held : List BlockSector) (t : BlockSector) (k : ℕ) : Bool × ℕ :=
  if σ.isOpen t ∨ t ∈ held then (true, k) else (σ.memory k, k + 1)

/-- The inode that `dir_lookup` opens for what it has found, from the request `k` on, and the next
request. -/
def FsState.openFound (σ : FsState) (held : List BlockSector) (found : Option BlockSector) (k : ℕ) :
    Option BlockSector × ℕ :=
  found.elim (none, k) fun t =>
    (if (σ.opening held t k).1 then some t else none, (σ.opening held t k).2)

/-- Whether the loop of `traverse_path` comes to the end of the path, with an inode of the sector
`inode`, if there is one.  `none` is a call that does not return. -/
def FsState.walk (σ : FsState) (held : List BlockSector) :
    ℕ → ℕ → List UInt8 → List UInt8 → Option BlockSector → Option Bool
  | 0, _, _, _, _ => none
  | turns + 1, k, name, path, inode =>
    let next := getNextPart name path
    if next.1 = false then some true
    else if cString next.2.1 = [46] then σ.walk held turns k next.2.1 next.2.2 inode
    else inode.elim (some false) fun s =>
      if (σ.store s).isDir = false then some false
      else if σ.memory k = false then none
      else (entryAt σ.store s (cString next.2.1)).bind fun found =>
        let inode := σ.openFound (s :: held) found (k + 1)
        σ.walk held turns inode.2 next.2.1 next.2.2 inode.1

/-- What the loop of `traverse_path` holds: the sectors of its directory and of its inode, the name,
and the next request for memory. -/
structure PathPlace where
  dir : BlockSector
  inode : Option BlockSector
  name : List UInt8
  next : ℕ

/-- Where the loop of `traverse_path` comes to.  It returns false at `some none`; `none` is a call
that does not return. -/
def FsState.arrives (σ : FsState) (held : List BlockSector) :
    ℕ → List UInt8 → PathPlace → Option (Option PathPlace)
  | 0, _, _ => none
  | turns + 1, path, place =>
    let next := getNextPart place.name path
    if next.1 = false then some (some { place with name := next.2.1 })
    else if cString next.2.1 = [46] then
      σ.arrives held turns next.2.2 { place with name := next.2.1 }
    else place.inode.elim (some none) fun s =>
      if (σ.store s).isDir = false then some none
      else if σ.memory place.next = false then none
      else (entryAt σ.store s (cString next.2.1)).bind fun found =>
        let inode := σ.openFound (s :: held) found (place.next + 1)
        σ.arrives held turns next.2.2 ⟨s, inode.1, next.2.1, inode.2⟩

/-- The walk goes as far as the path leads. -/
theorem FsState.walk_eq (σ : FsState) (held : List BlockSector) (turns : ℕ) (path : List UInt8)
    (place : PathPlace) : σ.walk held turns place.next place.name path place.inode =
      (σ.arrives held turns path place).map Option.isSome := by
  induction turns generalizing path place with
  | zero => rfl
  | succ turns ih =>
    unfold FsState.walk FsState.arrives
    dsimp only
    by_cases hend : (getNextPart place.name path).1 = false
    · rw [if_pos hend, if_pos hend]
      rfl
    rw [if_neg hend, if_neg hend]
    by_cases hdot : cString (getNextPart place.name path).2.1 = [46]
    · rw [if_pos hdot, if_pos hdot]
      exact ih (getNextPart place.name path).2.2
        { place with name := (getNextPart place.name path).2.1 }
    rw [if_neg hdot, if_neg hdot]
    cases place.inode with
    | none => rfl
    | some s =>
      rw [Option.elim_some, Option.elim_some]
      split_ifs
      · rfl
      · rfl
      · rw [Option.map_bind]
        exact congrArg _ (funext fun found => ih _ ⟨s, _, _, _⟩)

/-- An inode of the sector is open, and marked as removed. -/
def FsState.IsRemoved (σ : FsState) (s : BlockSector) : Prop :=
  ∃ p ∈ σ.openInodes, ∃ i, σ.inodes p = some i ∧ i.sector = s ∧ i.removed = true

/-- `traverse_path` stops on its way: the path is empty, or the directory in which it starts was
removed, or a component is missing or no directory in which the next one is to be looked up. -/
def FsState.Stops (σ : FsState) (held : List BlockSector) (k turns : ℕ) (x : BlockSector)
    (name path : List UInt8) : Prop :=
  path = [] ∨ σ.IsRemoved (startSector x path) ∨
    σ.walk held turns ((if path.head? = some 47 then (σ.opening held rootDirSector k).2 else k) + 1)
      name path (some (startSector x path)) = some false

/-- Whether `dir_open_root` gets memory. -/
def FsState.rootOpens (σ : FsState) : Bool :=
  (σ.opening [] rootDirSector 0).1 && σ.memory (σ.opening [] rootDirSector 0).2

/-- No sector can be taken at the request `k`: none is free, or the free map cannot be written. -/
def FsState.NoSector (σ : FsState) (k : ℕ) : Prop := σ.Full ∨ σ.MapRefused k

section Loop

variable {T : Table} {D₀ D D' : DirState} {gs : List InodeHandle} {k : ℕ} {d : DirPtr}
  {g : Option InodeHandle} {s t : BlockSector} {σ : FsState}

/-- **`inode_open`**, by what `opening` says. -/
theorem Held.opening (h : Held T gs k σ) (t : BlockSector) : Returns (inodeOpen t) σ fun r σ' =>
    ((T.fs.opening (gs.map Handle.key) t k).1 = true ∧
      ∃ p, r = some p ∧ Held T (⟨p, t⟩ :: gs) (T.fs.opening (gs.map Handle.key) t k).2 σ') ∨
    ((T.fs.opening (gs.map Handle.key) t k).1 = false ∧ r = none ∧
      Held T gs (T.fs.opening (gs.map Handle.key) t k).2 σ') := by
  have hisOpen : σ.isOpen t = true ↔ T.fs.isOpen t = true ∨ t ∈ gs.map Handle.key := by
    rw [h.isOpen, List.mem_map]
  unfold FsState.opening
  refine (h.openSector t).mono fun r σ' hr => ?_
  rcases hr with ⟨hopen, hp⟩ | ⟨hopen, hmem, hp⟩ | ⟨hopen, hmem, hr⟩
  · rw [if_pos (hisOpen.1 hopen)]
    exact .inl ⟨rfl, hp⟩
  · rw [if_neg fun hor => Bool.false_ne_true (hopen.symm.trans (hisOpen.2 hor))]
    exact .inl ⟨hmem, hp⟩
  · rw [if_neg fun hor => Bool.false_ne_true (hopen.symm.trans (hisOpen.2 hor))]
    exact .inr ⟨hmem, hr⟩

/-- **The loop of `traverse_path`** holds a directory, and an inode if there is one. -/
structure Standing (T : Table) (D₀ : DirState) (gs : List InodeHandle) (k : ℕ) (d : DirPtr)
    (q : InodeHandle) (g : Option InodeHandle) (D : DirState) : Prop where
  going : Going T D₀ (g.toList ++ q :: gs) k D
  dir : OpenAt D₀ d q.ptr D

/-- What a call leaves that comes there. -/
def Arrives (T : Table) (D₀ : DirState) (gs : List InodeHandle)
    (x : DirKernel (Option (DirPtr × Option InodePtr × List UInt8))) (D : DirState) :
    Option (Option PathPlace) → Prop
  | none => x.run D = none
  | some none => Returns x D fun r D' => r = none ∧ ∃ k, Going T D₀ gs k D'
  | some (some place) => Returns x D fun r D' => ∃ d q g,
      r = some (d, g.map Handle.ptr, place.name) ∧ q.key = place.dir ∧
      g.map Handle.key = place.inode ∧ Standing T D₀ gs place.next d q g D'

theorem Arrives.congr {x y : DirKernel (Option (DirPtr × Option InodePtr × List UInt8))}
    {c : Option (Option PathPlace)} (h : Arrives T D₀ gs x D' c) (hrun : y.run D = x.run D') :
    Arrives T D₀ gs y D c := by
  match c with
  | none => exact hrun.trans h
  | some none =>
    obtain ⟨r, D'', hx, hr⟩ := h
    exact ⟨r, D'', hrun.trans hx, hr⟩
  | some (some place) =>
    obtain ⟨r, D'', hx, hr⟩ := h
    exact ⟨r, D'', hrun.trans hx, hr⟩

theorem erase_second {α : Type} [DecidableEq α] (a b : α) (l : List α) :
    (a :: b :: l).erase b = a :: l := by
  by_cases hab : a = b
  · rw [hab, List.erase_cons_head]
  · rw [List.erase_cons_tail (by simpa using hab), List.erase_cons_head]

/-- A call of `inode.c` that may not return, and what follows it. -/
theorem ensures_onInodes {α β : Type} {x : Kernel α} {f : α → DirKernel β} {P : α → FsState → Prop}
    {Q : β → DirState → Prop} (h : Ensures x D.fs P)
    (hf : ∀ a σ, P a σ → Ensures (f a) (D.over σ) Q) : Ensures (onInodes x >>= f) D Q := by
  refine Ensures.seq (P := fun a D' => ∃ σ, P a σ ∧ D' = D.over σ) (fun a D' hrun => ?_)
    fun a D' ⟨σ, hσ, hD⟩ => hD ▸ hf a σ hσ
  rw [run_onInodes] at hrun
  obtain ⟨⟨_, σ⟩, hx, hr⟩ := Option.map_eq_some_iff.1 hrun
  obtain ⟨rfl, rfl⟩ := Prod.mk.inj hr
  exact ⟨σ, h _ _ hx, rfl⟩

/-- The kind of an inode that is held is on the disk. -/
theorem Going.isDirAt {h : InodeHandle} (hgoing : Going T D₀ gs k D) (hh : h ∈ gs) :
    Returns (onInodes (isDirAt h.ptr)) D fun r D' => r = (T.fs.store h.key).isDir ∧ D' = D := by
  obtain ⟨-, i, hi, hkey⟩ := hgoing.held.inode_of (List.mem_append_left _ hh)
  have hrun : Returns (Filesys.isDirAt h.ptr) D.fs fun r σ =>
      r = (D.fs.store i.sector).isDir ∧ σ = D.fs :=
    ⟨_, D.fs, (run_bind_of_run (run_getInode hi)).trans rfl, rfl, rfl⟩
  refine onInodes_returns (hrun.mono fun r σ hr => ?_)
  rw [hgoing.held.store, hkey] at hr
  exact ⟨hr.1, by rw [hr.2]; rfl⟩

/-- The directory of an inode is opened, and the one before it is closed. -/
theorem Going.run_openNext {α : Type} {h q : InodeHandle} (hgoing : Going T D₀ (h :: q :: gs) k D)
    (hd : OpenAt D₀ d q.ptr D) (f : DirPtr → DirKernel α) :
    (T.fs.memory k = true ∧ ∃ d' D', Going T D₀ (h :: gs) (k + 1) D' ∧ OpenAt D₀ d' h.ptr D' ∧
      (do
        let nextDir ← Filesys.dirOpen (some h.ptr)
        Filesys.dirClose (some d)
        let curDir ← nonNull nextDir
        f curDir).run D = (f d').run D') ∨
    (T.fs.memory k = false ∧ (do
      let nextDir ← Filesys.dirOpen (some h.ptr)
      Filesys.dirClose (some d)
      let curDir ← nonNull nextDir
      f curDir).run D = none) := by
  have hgoing' : Going T D₀ (⟨h.ptr, h.key⟩ :: q :: gs) k D := hgoing
  obtain ⟨r, D₁, hrun₁, h₁⟩ := hgoing'.dirOpen
  rw [run_bind_of_run hrun₁]
  rcases h₁ with ⟨hmem, d', rfl, hgoing₁, hopen, hlt, hkept⟩ | ⟨hmem, rfl, hgoing₁, hkept⟩
  · have hne : d' ≠ d := Nat.ne_of_gt (Nat.lt_of_lt_of_le hd.next hlt)
    obtain ⟨_, D₂, hrun₂, hgoing₂, hkept₂⟩ :=
      hgoing₁.dirClose (g := q) (by simp) (hkept d q.ptr hd)
    rw [erase_second] at hgoing₂
    exact .inl ⟨hmem, d', D₂, hgoing₂, hkept₂ d' h.ptr hne hopen, run_bind_of_run hrun₂⟩
  · obtain ⟨_, D₂, hrun₂, -⟩ := hgoing₁.dirClose (g := q) (by simp) (hkept d q.ptr hd)
    exact .inr ⟨hmem, run_bind_of_run hrun₂⟩

/-- **`dir_lookup`**, which opens the inode that it finds. -/
theorem Going.dirLookup_returns {h : InodeHandle} (hgoing : Going T D₀ (h :: gs) k D)
    (hd : OpenAt D₀ d h.ptr D) {name : List UInt8} {found : Option BlockSector}
    (hentry : entryAt T.fs.store h.key name = some found) :
    Returns (dirLookup d name) D fun r D' => ∃ g : Option InodeHandle, r = g.map Handle.ptr ∧
      g.map Handle.key = (T.fs.openFound ((h :: gs).map Handle.key) found k).1 ∧
      Going T D₀ (g.toList ++ h :: gs) (T.fs.openFound ((h :: gs).map Handle.key) found k).2 D' ∧
      OpenAt D₀ d h.ptr D' := by
  obtain ⟨r, hr, hrun⟩ := hgoing.run_dirLookup List.mem_cons_self hd name
  obtain ⟨e, rfl, rfl⟩ := Option.map_eq_some_iff.1 (hr.symm.trans hentry)
  unfold Returns
  rw [hrun]
  cases e with
  | none => exact ⟨none, D, rfl, none, rfl, rfl, hgoing, hd⟩
  | some r =>
    obtain ⟨e, ofs⟩ := r
    show Returns (onInodes (inodeOpen (entrySector e))) D _
    unfold FsState.openFound
    rw [Option.map_some, Option.elim_some]
    refine onInodes_returns ((hgoing.held.opening (entrySector e)).mono fun inode σ hσ => ?_)
    rcases hσ with ⟨hopened, p, rfl, hheld⟩ | ⟨hopened, rfl, hheld⟩
    · rw [hopened, if_pos rfl]
      exact ⟨some ⟨p, entrySector e⟩, rfl, rfl, hgoing.over hheld, hd.over σ⟩
    · rw [hopened, if_neg Bool.false_ne_true]
      exact ⟨none, rfl, rfl, hgoing.over hheld, hd.over σ⟩

/-- Where the directory's inode does not say what is there, `dir_lookup` does not return. -/
theorem Going.run_dirLookup_none {h : InodeHandle} (hgoing : Going T D₀ (h :: gs) k D)
    (hd : OpenAt D₀ d h.ptr D) {name : List UInt8} (hentry : entryAt T.fs.store h.key name = none) :
    (dirLookup d name).run D = none := by
  obtain ⟨r, hr, hrun⟩ := hgoing.run_dirLookup List.mem_cons_self hd name
  obtain rfl : r = none := Option.map_eq_none_iff.1 (hr.symm.trans hentry)
  exact hrun

theorem Going.dirLookup {h : InodeHandle} (hgoing : Going T D₀ (h :: gs) k D)
    (hd : OpenAt D₀ d h.ptr D) (name : List UInt8) :
    Ensures (dirLookup d name) D fun r D' => ∃ found g,
      entryAt T.fs.store h.key name = some found ∧ r = g.map Handle.ptr ∧
      g.map Handle.key = (T.fs.openFound ((h :: gs).map Handle.key) found k).1 ∧
      Standing T D₀ gs (T.fs.openFound ((h :: gs).map Handle.key) found k).2 d h g D' := by
  intro r D' hrun
  cases hentry : entryAt T.fs.store h.key name with
  | none => cases (hgoing.run_dirLookup_none hd hentry).symm.trans hrun
  | some found =>
    obtain ⟨g, hr, hkey, hgoing', hd'⟩ := (hgoing.dirLookup_returns hd hentry).of_run hrun
    exact ⟨found, g, rfl, hr, hkey, hgoing', hd'⟩

/-- **The loop of `traverse_path`** comes where `arrives` says, by induction on the turns. -/
theorem Standing.traverseFrom {q : InodeHandle} (h : Standing T D₀ gs k d q g D) (turns : ℕ)
    (name path : List UInt8) :
    Arrives T D₀ gs (traverseFrom turns name path d (g.map Handle.ptr)) D
      (T.fs.arrives (gs.map Handle.key) turns path ⟨q.key, g.map Handle.key, name, k⟩) := by
  induction turns generalizing name path k d q g D with
  | zero => exact rfl
  | succ turns ih =>
    unfold Filesys.traverseFrom FsState.arrives
    dsimp only
    rcases getNextPart name path with ⟨found, name', rest⟩
    dsimp only
    cases found with
    | false =>
      rw [if_pos rfl]
      exact returns_pure.2 ⟨d, q, g, rfl, rfl, rfl, h⟩
    | true =>
      rw [if_neg (by simp)]
      dsimp only
      by_cases hdot : cString name' = [46]
      · rw [if_pos hdot, if_pos hdot]
        exact ih h name' rest
      rw [if_neg hdot, if_neg hdot]
      obtain ⟨hgoing, hd⟩ := h
      cases g with
      | none =>
        -- the component before is missing
        refine (hgoing.dirClose (g := q) (by simp) hd).seq fun _ D₁ h₁ => ?_
        obtain ⟨hgoing₁, -⟩ := h₁
        refine returns_pure.2 ⟨rfl, k, ?_⟩
        rwa [Option.toList_none, List.nil_append, List.erase_cons_head] at hgoing₁
      | some g =>
        obtain ⟨_, _, hkind, rfl, rfl⟩ := hgoing.isDirAt (h := g) (by simp)
        refine Arrives.congr ?_ (run_bind_of_run hkind)
        rw [Option.map_some, Option.elim_some]
        cases hdir : (T.fs.store g.key).isDir with
        | false =>
          rw [if_pos rfl, if_pos rfl]
          refine onInodes_seq (hgoing.held.close (g := g) (by simp)) fun _ σ hσ => ?_
          have hheld : Held T (q :: gs) k σ := by
            rwa [Option.toList_some, List.singleton_append, List.erase_cons_head] at hσ
          refine ((hgoing.over hheld).dirClose (g := q) (by simp) (hd.over σ)).seq fun _ D₂ h₂ => ?_
          obtain ⟨hgoing₂, -⟩ := h₂
          rw [List.erase_cons_head] at hgoing₂
          exact returns_pure.2 ⟨rfl, k, hgoing₂⟩
        | true =>
          rw [if_neg (by simp), if_neg (by simp)]
          rcases Going.run_openNext (h := g) hgoing hd _ with
            ⟨hmem, d', D₂, hgoing₂, hd', hrun⟩ | ⟨hmem, hrun⟩
          · rw [hmem, if_neg (by simp)]
            refine Arrives.congr ?_ hrun
            cases hentry : entryAt T.fs.store g.key (cString name') with
            | none =>
              refine (StateT.run_bind _ _ _).trans ?_
              rw [hgoing₂.run_dirLookup_none hd' hentry]
              rfl
            | some found =>
              obtain ⟨r, D₃, hlookup, g', rfl, hkey, hgoing₃, hd₃⟩ :=
                hgoing₂.dirLookup_returns hd' hentry
              have hrest := ih ⟨hgoing₃, hd₃⟩ name' rest
              rw [hkey] at hrest
              exact hrest.congr (run_bind_of_run hlookup)
          · rw [hmem, if_pos rfl]
            exact hrun

end Loop

/-! ### `traverse_path` -/

section Path

variable {T : Table} {D₀ D D' : DirState} {gs : List InodeHandle} {k : ℕ} {d : DirPtr}
  {g : InodeHandle} {x : BlockSector} {σ : FsState} {i : Inode} {path : List UInt8}

/-- An inode that is held was removed if it was removed in the table. -/
theorem Held.removed_iff (h : Held T gs k σ) (hg : g ∈ gs ++ T.handles)
    (hi : σ.inodes g.ptr = some i) : i.removed = true ↔ T.fs.IsRemoved g.key := by
  obtain ⟨hp, i', hi', hkey⟩ := h.inode_of hg
  obtain rfl := Option.some.inj (hi.symm.trans hi')
  rw [h.inv.marked g.ptr hp i hi]
  constructor
  · intro hremoved
    have hold : g.ptr ∈ T.fs.openInodes := (h.listed _ hp).resolve_right
      (Nat.not_le.2 (h.base.removals g.ptr hremoved))
    obtain ⟨n, hn⟩ := h.base.counted.counts g.ptr hold
    obtain ⟨j, hj, -⟩ := FsState.inode_of_cell hn
    obtain ⟨m, hm⟩ := h.kept g.ptr j hj
    have hinode := Option.some.inj (hi.symm.trans hm)
    rw [hinode] at hkey
    exact ⟨g.ptr, hold, j, hj, hkey, (h.base.marked g.ptr hold j hj).2 hremoved⟩
  · rintro ⟨q, hq, j, hj, hsector, hremoved⟩
    obtain ⟨g', hg', hptr⟩ := refs_pos.1 (h.base.counted.held q hq)
    obtain ⟨-, j', hj', hkey'⟩ := h.base.inode_of_handle hg'
    rw [hptr] at hj'
    obtain rfl := Option.some.inj (hj.symm.trans hj')
    have hshare : g'.ptr = g.ptr :=
      h.inv.counted.share (List.mem_append_right gs hg') hg (hkey'.symm.trans hsector)
    rw [← hshare, hptr]
    exact (h.base.marked q hq j hj).1 hremoved

/-- The working directory and what uninitialised buffers hold are the same. -/
structure Steady (D D' : DirState) : Prop where
  workDir : D'.workDir = D.workDir
  junk : D'.junk = D.junk

theorem Steady.refl (D : DirState) : Steady D D := ⟨rfl, rfl⟩

theorem Steady.trans {D D' D'' : DirState} (h : Steady D D') (h' : Steady D' D'') : Steady D D'' :=
  ⟨h'.workDir.trans h.workDir, h'.junk.trans h.junk⟩

theorem getDir_ensures (d : DirPtr) (D : DirState) :
    Ensures (getDir d) D fun dir D' => D.dirs d = some dir ∧ D' = D := by
  unfold getDir
  rw [ensures_get_bind]
  cases D.dirs d with
  | none => exact ensures_halt
  | some dir => exact ensures_pure ⟨rfl, rfl⟩

/-- **`dir_open_root`**. -/
theorem Going.dirOpenRoot (h : Going T D₀ gs k D) : Returns dirOpenRoot D fun r D' =>
    (((T.fs.opening (gs.map Handle.key) rootDirSector k).1 &&
        T.fs.memory (T.fs.opening (gs.map Handle.key) rootDirSector k).2) = true ∧ ∃ d p, r = some d ∧
      Going T D₀ (⟨p, rootDirSector⟩ :: gs)
        ((T.fs.opening (gs.map Handle.key) rootDirSector k).2 + 1) D' ∧ OpenAt D₀ d p D') ∨
    (((T.fs.opening (gs.map Handle.key) rootDirSector k).1 &&
        T.fs.memory (T.fs.opening (gs.map Handle.key) rootDirSector k).2) = false ∧ r = none ∧
      Going T D₀ gs ((T.fs.opening (gs.map Handle.key) rootDirSector k).2 + 1) D') := by
  unfold Filesys.dirOpenRoot
  refine onInodes_seq (h.held.opening rootDirSector) fun inode σ hσ => ?_
  rcases hσ with ⟨hopened, p, rfl, hheld⟩ | ⟨hopened, rfl, hheld⟩
  · rw [hopened, Bool.true_and]
    refine (h.over hheld).dirOpen.mono fun r D₁ h₁ => ?_
    rcases h₁ with ⟨hmem, d, rfl, hgoing, hopen, -⟩ | ⟨hmem, rfl, hgoing, -⟩
    · exact .inl ⟨hmem, d, p, rfl, hgoing, hopen⟩
    · exact .inr ⟨hmem, rfl, hgoing⟩
  · rw [hopened, Bool.false_and]
    unfold Filesys.dirOpen
    refine onInodes_seq (P := fun _ σ' => Held T gs _ σ')
      ⟨_, _, run_alloc _, hheld.shift⟩ fun ok σ' hσ' => ?_
    exact returns_pure.2 (.inr ⟨rfl, rfl, (h.over hheld).over hσ'⟩)

/-- Whether the directory in which `traverse_path` starts gets memory, from the request `k` on, and
the next request. -/
def FsState.startsWith (σ : FsState) (held : List BlockSector) (k : ℕ) (path : List UInt8) : Bool × ℕ :=
  if path.head? = some 47 then
    ((σ.opening held rootDirSector k).1 && σ.memory (σ.opening held rootDirSector k).2,
      (σ.opening held rootDirSector k).2 + 1)
  else (σ.memory k, k + 1)

/-- **Where `traverse_path` starts.** -/
theorem Going.startDir_returns (h : Going T D gs k D) (hin : InDir T x D.workDir D)
    (path : List UInt8) : Returns (startDir path) D fun r D' =>
      ((T.fs.startsWith (gs.map Handle.key) k path).1 = true ∧ ∃ d q, r = some d ∧
        q.key = startSector x path ∧
        Going T D (q :: gs) (T.fs.startsWith (gs.map Handle.key) k path).2 D' ∧ OpenAt D d q.ptr D') ∨
      ((T.fs.startsWith (gs.map Handle.key) k path).1 = false ∧ r = none) := by
  unfold Filesys.startDir startSector FsState.startsWith
  rw [returns_get_bind]
  split_ifs with hslash
  · refine h.dirOpenRoot.mono fun r D' hr => ?_
    rcases hr with ⟨hmem, d, p, rfl, hgoing, hopen⟩ | ⟨hmem, rfl, -⟩
    · exact .inl ⟨hmem, d, _, rfl, rfl, hgoing, hopen⟩
    · exact .inr ⟨hmem, rfl⟩
  · refine (h.dirReopen hin).mono fun r D' hr => ?_
    rcases hr with ⟨hmem, d, p, rfl, hgoing, hopen⟩ | ⟨hmem, rfl, -⟩
    · exact .inl ⟨hmem, d, _, rfl, rfl, hgoing, hopen⟩
    · exact .inr ⟨hmem, rfl⟩

/-- Where `traverse_path` comes to from the request `k` on, unless it stops before its loop. -/
def FsState.traverses (σ : FsState) (held : List BlockSector) (k turns : ℕ) (x : BlockSector)
    (name path : List UInt8) : Option (Option PathPlace) :=
  σ.arrives held turns path
    ⟨startSector x path, some (startSector x path), name, (σ.startsWith held k path).2⟩

/-- **Where `traverse_path` comes**, unless its path is empty. -/
theorem Going.traversePath_arrives (h : Going T D gs k D) (hin : InDir T x D.workDir D) (turns : ℕ)
    (name : List UInt8) (hnil : path ≠ []) :
    ((T.fs.startsWith (gs.map Handle.key) k path).1 = false ∧
      (traversePath turns path name).run D = none) ∨
    ((T.fs.startsWith (gs.map Handle.key) k path).1 = true ∧ T.fs.IsRemoved (startSector x path) ∧
      Returns (traversePath turns path name) D fun r D' => r = none ∧ ∃ k, Going T D gs k D') ∨
    ((T.fs.startsWith (gs.map Handle.key) k path).1 = true ∧ ¬T.fs.IsRemoved (startSector x path) ∧
      Arrives T D gs (traversePath turns path name) D
        (T.fs.arrives (gs.map Handle.key) turns path ⟨startSector x path, some (startSector x path),
          name, (T.fs.startsWith (gs.map Handle.key) k path).2⟩)) := by
  unfold Filesys.traversePath
  rw [if_neg hnil]
  obtain ⟨r, D₁, hrun, hstarts⟩ := h.startDir_returns hin path
  rcases hstarts with ⟨hmem, d, q, rfl, hkey, hgoing, hd⟩ | ⟨hmem, rfl⟩
  swap
  · exact .inl ⟨hmem, run_bind_of_run hrun⟩
  obtain ⟨dir, hdir, hptr⟩ := hd.dir
  obtain ⟨-, i, hi, -⟩ := hgoing.held.inode_of (g := q) (by simp)
  have hremoved := hgoing.held.removed_iff (g := q) (by simp) hi
  rw [hkey] at hremoved
  have hgetDir : (getDir d).run D₁ = some (dir, D₁) := by
    unfold getDir
    rw [run_bind_of_run (a := D₁) (t := D₁) rfl, hdir]
    rfl
  have hinode : (onInodes (getInode dir.inode)).run D₁ = some (i, D₁) := by
    rw [run_onInodes, hptr, run_getInode hi]
    rfl
  have hwhole : ∀ f : Option DirPtr → DirKernel (Option (DirPtr × Option InodePtr × List UInt8)),
      (Filesys.startDir path >>= f).run D = (f (some d)).run D₁ := fun f => run_bind_of_run hrun
  have hnonNull : (nonNull (some d) : DirKernel DirPtr) = pure d := rfl
  refine .inr ?_
  cases hmark : i.removed with
  | true =>
    refine .inl ⟨hmem, hremoved.1 hmark, ?_⟩
    have hclose : Returns (Filesys.dirClose (some d) >>= fun _ => (pure none :
        DirKernel (Option (DirPtr × Option InodePtr × List UInt8)))) D₁ fun r D' =>
          r = none ∧ ∃ k, Going T D gs k D' := by
      refine (hgoing.dirClose (g := q) (by simp) hd).seq fun _ D₂ h₂ => ?_
      have hgoing₂ := h₂.1
      rw [List.erase_cons_head] at hgoing₂
      exact returns_pure.2 ⟨rfl, _, hgoing₂⟩
    obtain ⟨r, D₂, hrun₂, hr⟩ := hclose
    refine ⟨r, D₂, ?_, hr⟩
    rw [hwhole, hnonNull, pure_bind, run_bind_of_run hgetDir, run_bind_of_run hinode, hmark,
      if_pos rfl, hrun₂]
  | false =>
    refine .inr ⟨hmem, fun h => Bool.false_ne_true (hmark.symm.trans (hremoved.2 h)), ?_⟩
    obtain ⟨_, σ, hreopen, hheld⟩ := hgoing.held.reopen (g := q) (by simp)
    have hstanding : Standing T D gs _ d q (some q) (D₁.over σ) := ⟨hgoing.over hheld, hd.over σ⟩
    have hloop := hstanding.traverseFrom turns name path
    rw [Option.map_some, Option.map_some, hkey] at hloop
    refine hloop.congr ?_
    have hreopen' : (onInodes (inodeReopen q.ptr)).run D₁ = some ((), D₁.over σ) := by
      rw [run_onInodes, hreopen]
      rfl
    rw [hwhole, hnonNull, pure_bind, run_bind_of_run hgetDir, run_bind_of_run hinode, hmark,
      if_neg Bool.false_ne_true, hptr]
    exact run_bind_of_run hreopen'

theorem FsState.startsWith_next (σ : FsState) (held : List BlockSector) (k : ℕ) (path : List UInt8) :
    (σ.startsWith held k path).2 =
      (if path.head? = some 47 then (σ.opening held rootDirSector k).2 else k) + 1 := by
  unfold FsState.startsWith
  split_ifs <;> rfl

/-- **`traverse_path`** stops, or comes to the end of the path. -/
theorem Going.traversePath (h : Going T D gs k D) (hin : InDir T x D.workDir D) (turns : ℕ)
    (name path : List UInt8) : Ensures (traversePath turns path name) D fun r D' =>
      (r = none ∧ T.fs.Stops (gs.map Handle.key) k turns x name path ∧ ∃ k', Going T D gs k' D') ∨
      ∃ place d q g, r = some (d, g.map Handle.ptr, place.name) ∧
        ¬T.fs.Stops (gs.map Handle.key) k turns x name path ∧
        T.fs.traverses (gs.map Handle.key) k turns x name path = some (some place) ∧
        g.map Handle.key = place.inode ∧ Standing T D gs place.next d q g D' := by
  unfold FsState.Stops FsState.traverses
  by_cases hnil : path = []
  · unfold Filesys.traversePath
    rw [if_pos hnil]
    exact ensures_pure (.inl ⟨rfl, .inl hnil, k, h⟩)
  intro r D' hrun
  rcases h.traversePath_arrives hin turns name hnil with
    ⟨-, hnone⟩ | ⟨-, hremoved, hreturns⟩ | ⟨-, hremoved, harrives⟩
  · cases hnone.symm.trans hrun
  · obtain ⟨rfl, hgoing⟩ := hreturns.of_run hrun
    exact .inl ⟨rfl, .inr (.inl hremoved), hgoing⟩
  · rw [or_iff_right hnil, or_iff_right hremoved, ← FsState.startsWith_next]
    have hwalk := T.fs.walk_eq (gs.map Handle.key) turns path ⟨startSector x path,
      some (startSector x path), name, (T.fs.startsWith (gs.map Handle.key) k path).2⟩
    dsimp only at hwalk
    rw [hwalk]
    cases hc : T.fs.arrives (gs.map Handle.key) turns path ⟨startSector x path,
        some (startSector x path), name, (T.fs.startsWith (gs.map Handle.key) k path).2⟩ with
    | none =>
      rw [hc] at harrives
      cases harrives.symm.trans hrun
    | some place =>
      rw [hc] at harrives
      cases place with
      | none =>
        obtain ⟨rfl, hgoing⟩ := Returns.of_run harrives hrun
        exact .inl ⟨rfl, rfl, hgoing⟩
      | some place =>
        obtain ⟨d, q, g, rfl, -, hinode, hstanding⟩ := Returns.of_run harrives hrun
        exact .inr ⟨place, d, q, g, rfl, by simp, rfl, hinode, hstanding⟩

end Path

/-! ### What making a file leaves open -/

/-- The open inodes, and the inodes of open directories, are the same. -/
structure SameOpen (D D' : DirState) : Prop where
  fs : SameTable D.fs D'.fs
  dirs : ∀ d, (D'.dirs d).map Dir.inode = (D.dirs d).map Dir.inode
  nextDir : D'.nextDir = D.nextDir

section SameOpen

variable {D : DirState} {α : Type}

theorem SameOpen.refl (D : DirState) : SameOpen D D := ⟨.refl _, fun _ => rfl, rfl⟩

theorem SameOpen.trans {D D' D'' : DirState} (h : SameOpen D D') (h' : SameOpen D' D'') :
    SameOpen D D'' :=
  ⟨h.fs.trans h'.fs, fun d => (h'.dirs d).trans (h.dirs d), h'.nextDir.trans h.nextDir⟩

theorem onInodes_sameOpen {x : Kernel α} (h : Preserves SameTable x) :
    Preserves SameOpen (onInodes x) := by
  intro D a D' hrun
  rw [run_onInodes] at hrun
  obtain ⟨⟨_, σ⟩, hx, hr⟩ := Option.map_eq_some_iff.1 hrun
  cases hr
  exact ⟨h _ _ _ hx, fun _ => rfl, rfl⟩

theorem lookupFrom_preserves (p : InodePtr) (name : List UInt8) (turns ofs : ℕ) :
    Preserves SameTable (lookupFrom p name turns ofs) := by
  induction turns generalizing ofs with
  | zero => exact preserves_halt
  | succ turns ih =>
    unfold lookupFrom
    refine ignores_sameTable.bind (ignores_sameTable.inodeReadAt p 20 ofs) fun e => ?_
    split_ifs
    · exact ignores_sameTable.pure _
    · exact ih (ofs + 20)
    · exact ignores_sameTable.pure _

theorem freeSlot_preserves (p : InodePtr) (turns : ℕ) (e : List UInt8) (ofs : ℕ) :
    Preserves SameTable (freeSlot p turns e ofs) := by
  induction turns generalizing e ofs with
  | zero => exact preserves_halt
  | succ turns ih =>
    unfold freeSlot
    refine ignores_sameTable.bind (ignores_sameTable.inodeReadAt p 20 ofs) fun bytes => ?_
    dsimp only
    split_ifs
    · exact ih _ (ofs + 20)
    · exact ignores_sameTable.pure _
    · exact ignores_sameTable.pure _

/-- A change of an open directory that keeps its inode. -/
theorem setDir_sameOpen {d : DirPtr} {dir dir' : Dir} (h : D.dirs d = some dir)
    (hinode : dir'.inode = dir.inode) :
    Returns (setDir d (some dir')) D fun _ D' => SameOpen D D' := by
  refine returns_modify.2 ⟨.refl _, fun e => ?_, rfl⟩
  by_cases he : e = d
  · rw [he, h]
    show (Function.update D.dirs d (some dir') d).map Dir.inode = some dir.inode
    rw [Function.update_self, Option.map_some, hinode]
  · show (Function.update D.dirs d (some dir') e).map Dir.inode = _
    rw [Function.update_of_ne he]

/-- **`dir_add`** opens and closes nothing. -/
theorem dirAdd_sameOpen (d : DirPtr) (name : List UInt8) (sector : BlockSector) :
    Preserves SameOpen (dirAdd d name sector) := by
  have huninit : Preserves SameOpen (uninit 20) :=
    preserves_get_bind fun D => ensures_set_bind (ensures_pure ⟨.refl _, fun _ => rfl, rfl⟩)
  refine huninit.bind SameOpen.trans fun e D => ?_
  split_ifs
  · exact ensures_pure (.refl D)
  refine Ensures.seq (getDir_ensures d D) fun dir D' hdir => ?_
  obtain ⟨hdir, rfl⟩ := hdir
  refine ensures_onInodes (lookupFrom_preserves dir.inode name maxEntries 0 D'.fs)
    fun found σ hσ => ?_
  split_ifs
  · exact ensures_pure ⟨hσ, fun _ => rfl, rfl⟩
  refine ensures_onInodes (freeSlot_preserves dir.inode maxEntries e 0 σ) fun r σ₁ hσ₁ => ?_
  refine ensures_onInodes (inodeWriteAt_preserves dir.inode _ _ σ₁) fun written σ₂ hσ₂ => ?_
  have hsame : SameOpen D' (((D'.over σ).over σ₁).over σ₂) :=
    ⟨(hσ.trans hσ₁).trans hσ₂, fun _ => rfl, rfl⟩
  split_ifs
  · have hdir₂ : (((D'.over σ).over σ₁).over σ₂).dirs d = some dir := hdir
    have hinode : { dir with numEntries := dir.numEntries + 1 }.inode = dir.inode := rfl
    refine Ensures.seq (setDir_sameOpen hdir₂ hinode).ensures fun _ D₃ h₃ => ?_
    exact ensures_pure (hsame.trans h₃)
  · exact ensures_pure hsame

end SameOpen

/-! ### `filesys_create` -/

section Create

variable {T : Table} {D D' : DirState} {gs : List InodeHandle} {k : ℕ} {d : DirPtr}
  {q : InodeHandle} {x : BlockSector}

theorem Going.then (h : Going T D gs k D') {D'' : DirState} {gs' : List InodeHandle} {k' : ℕ}
    (h' : Going T D' gs' k' D'') : Going T D gs' k' D'' :=
  ⟨h'.held, fun d hd => (h'.dirs d (Nat.lt_of_lt_of_le hd h.next)).trans (h.dirs d hd),
    h.next.trans h'.next⟩

/-- What is open, by the handles. -/
def HandlesAre (hs : List InodeHandle) (D : DirState) : Prop :=
  ∃ T, TableInv T ∧ T.fs = D.fs ∧ T.handles = hs

theorem Going.handles (h : Going T D gs k D') : HandlesAre (gs ++ T.handles) D' :=
  ⟨_, h.held.inv, rfl, rfl⟩

theorem HandlesAre.of_same {hs : List InodeHandle} (h : HandlesAre hs D) (hsame : SameOpen D D') :
    HandlesAre hs D' := by
  obtain ⟨T, hinv, hfs, hhandles⟩ := h
  refine ⟨{ T with fs := D'.fs }, hinv.kept ⟨?_, ?_, fun p => ?_⟩, rfl, hhandles⟩
  · rw [hfs, hsame.fs.openInodes]
  · rw [hfs, hsame.fs.nextPtr]
  · rw [hfs, hsame.fs.inodes]

/-- **`dir_close`** of an open directory. -/
theorem HandlesAre.dirClose {hs : List InodeHandle} {dir : Dir} (h : HandlesAre hs D) (hq : q ∈ hs)
    (hd : D.dirs d = some dir) (hinode : dir.inode = q.ptr) :
    Ensures (dirClose (some d)) D fun _ D' => HandlesAre (hs.erase q) D' ∧
      D'.dirs = Function.update D.dirs d none ∧ D'.nextDir = D.nextDir := by
  obtain ⟨T, hinv, hfs, hhandles⟩ := h
  refine Ensures.seq (getDir_returns (Q := fun dir' D' => dir' = dir ∧ D' = D) hd ⟨rfl, rfl⟩).ensures
    fun dir' D₁ h₁ => ?_
  obtain ⟨rfl, rfl⟩ := h₁
  refine ensures_onInodes (P := fun _ σ => (inodeClose q.ptr).run T.fs = some ((), σ))
    (fun _ σ hrun => ?_) fun _ σ hrun => ?_
  · rw [hfs, ← hinode]
    exact hrun
  · have hmem : q ∈ T.handles := hhandles ▸ hq
    refine (returns_modify.2 ⟨⟨_, hinv.step (.closed hmem hrun), rfl, ?_⟩, rfl, rfl⟩ :
      Returns _ _ _).ensures
    dsimp only
    rw [hhandles]

/-- A directory is closed after calls that open and close nothing. -/
theorem HandlesAre.closeAfter {hs : List InodeHandle} (h : HandlesAre (q :: hs) D)
    (hd : (D.dirs d).map Dir.inode = some q.ptr) (hsame : SameOpen D D') :
    Ensures (Filesys.dirClose (some d)) D' fun _ D'' => HandlesAre hs D'' := by
  rw [← hsame.dirs] at hd
  obtain ⟨dir, hdir, hptr⟩ := Option.map_eq_some_iff.1 hd
  intro a D'' hrun
  have hclosed := ((h.of_same hsame).dirClose List.mem_cons_self hdir hptr a D'' hrun).1
  rwa [List.erase_cons_head] at hclosed

theorem Held.full (h : Held T gs k σ) (hfull : T.fs.Full) : σ.Full := by
  unfold FsState.Full
  rw [h.freeMap]
  exact hfull

theorem Held.mapRefused (h : Held T gs k σ) (hrefused : T.fs.MapRefused k) : σ.MapRefused 0 := by
  obtain ⟨p, inode, hfile, hp, hdeny, hlength⟩ := hrefused.file
  obtain ⟨n, hn⟩ := h.kept p inode hp
  refine ⟨(h.memory 0).trans hrefused.refused, p, _, h.freeMapFile.trans hfile, hn, hdeny, ?_⟩
  rw [h.freeMap]
  dsimp only
  rw [h.store]
  exact hlength

/-- `free_map_allocate` where no sector is free. -/
theorem Going.allocate_full (h : Going T D gs k D') (hfull : T.fs.Full) :
    Returns (onInodes (freeMapAllocate 1)) D' fun r D'' => r = none ∧
      (T.fs.Full ∧ Going T D gs k D'' ∨ Going T D gs (k + 1) D'') ∧
      ∀ e q, OpenAt D e q D' → OpenAt D e q D'' :=
  onInodes_returns ⟨_, _, run_freeMapAllocate_full (h.held.full hfull), rfl,
    .inl ⟨hfull, h.over h.held⟩, fun _ _ he => he.over _⟩

/-- **`free_map_allocate`** where no sector can be taken; the free map asks for memory once to be
written, unless it is full. -/
theorem Going.allocate_none (h : Going T D gs k D') (hno : T.fs.NoSector k) :
    Returns (onInodes (freeMapAllocate 1)) D' fun r D'' => r = none ∧
      (T.fs.Full ∧ Going T D gs k D'' ∨ Going T D gs (k + 1) D'') ∧
      ∀ e q, OpenAt D e q D' → OpenAt D e q D'' := by
  rcases hno with hfull | hrefused
  · exact h.allocate_full hfull
  · rcases run_freeMapAllocate_refused (h.held.mapRefused hrefused) with hfull | hrun
    · refine h.allocate_full ?_
      unfold FsState.Full at hfull ⊢
      rwa [h.held.freeMap] at hfull
    · exact onInodes_returns ⟨_, _, hrun, rfl, .inr (h.over h.held.shift), fun e q he => he.over _⟩

/-- The end of `filesys_create`: the sector of a file that was not made is released. -/
theorem HandlesAre.finish {hs : List InodeHandle} (h : HandlesAre (q :: hs) D)
    (hd : (D.dirs d).map Dir.inode = some q.ptr) (hsame : SameOpen D D') (success : Bool)
    (sector : BlockSector) :
    Ensures (do
      if success = false ∧ sector ≠ 0 then onInodes (freeMapRelease sector 1)
      Filesys.dirClose (some d)
      return success) D' fun _ D'' => HandlesAre hs D'' := by
  split_ifs
  · have hrelease := onInodes_sameOpen ((sparing_bitmapWrite none).release sector 1)
    refine Ensures.seq (hrelease D') fun _ D₁ h₁ => ?_
    exact Ensures.seq (h.closeAfter hd (hsame.trans h₁)) fun _ D₂ h₂ => ensures_pure h₂
  · exact Ensures.seq (h.closeAfter hd hsame) fun _ D₂ h₂ => ensures_pure h₂

/-- The root directory is open, if it got memory; closing it leaves what was open before. -/
structure RootOpened (T : Table) (D : DirState) (start : Option DirPtr) (D₁ : DirState)
    (gs : List InodeHandle) : Prop where
  going : Going T D gs ((T.fs.opening [] rootDirSector 0).2 + 1) D₁
  keys : gs.map Handle.key = if T.fs.rootOpens then [rootDirSector] else []
  handle : T.fs.rootOpens = true → ∃ p, gs = [⟨p, rootDirSector⟩]
  close : ∀ D' k, Going T D₁ gs k D' →
    Returns (Filesys.dirClose start) D' fun _ D'' => Going T D [] k D''

end Create

section InRoot

variable (disk : BlockSector → Sector)

theorem inRoot_table :
    TableInv ⟨(inRoot (fresh 1024 disk)).fs, [⟨0, rootDirSector⟩], [], []⟩ :=
  (TableInv.of_init (T := ⟨fresh 1024 disk, [], [], []⟩)
    ⟨rfl, fun _ => rfl, rfl, rfl, rfl⟩).entered fun _ hp => absurd hp List.not_mem_nil

theorem inRoot_inDir : InDir ⟨(inRoot (fresh 1024 disk)).fs, [⟨0, rootDirSector⟩], [], []⟩
    rootDirSector 0 (inRoot (fresh 1024 disk)) :=
  ⟨⟨_, rfl, List.mem_cons_self⟩, Nat.one_pos⟩

end InRoot

/-- A process in the root directory of a disk with a file. -/
def beforeCreate : DirState := inRoot (fresh 1024 plainDisk)

theorem beforeCreate_table : TableInv ⟨beforeCreate.fs, [⟨0, rootDirSector⟩], [], []⟩ :=
  inRoot_table plainDisk

end Filesys
end CS162

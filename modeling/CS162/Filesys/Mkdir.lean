/-
# Making a directory

`projects1-3/src/filesys/directory.c`, lines 242-306: `system_mkdir`.

`mkdirEntry` is the part of `system_mkdir` that makes the new inode and enters it in its parent;
`mkdirLevels` enters `.` and `..`, and allocates a sector of its own that nothing records.
`mkdirWalk` is how far the loop before them comes, by what the disk says.  Where it returns false, what
it has opened stays open; at its end nothing does, and nothing is taken where no sector can be taken
(`systemMkdir_right`).
-/

import CS162.Filesys.CreateTrace
import CS162.Filesys.Index
import CS162.Filesys.Mount

namespace CS162
namespace Filesys

open CS162.Basis

/-! ### `system_mkdir` -/

/-- The loop of `system_mkdir`: `start_dir` and `next_name`, or `none` where it returns false. -/
def mkdirFrom : ℕ → List UInt8 → List UInt8 → Option DirPtr →
    DirKernel (Option (Option DirPtr × List UInt8))
  | 0, _, _, _ => halt
  | turns + 1, name, path, startDir =>
    match getNextPart name path with
    | (false, name, _) => return some (startDir, name)
    | (true, name, path) => do
      let dir ← nonNull startDir
      let currFile ← dirLookup dir (cString name)
      if path = [] then
        if currFile.isSome then return none else return some (startDir, name)
      else
        match currFile with
        | none => return none
        | some p =>
          let kind ← onInodes (isDirAt p)
          if kind = false then return none
          else
            dirClose startDir
            let nextDir ← dirOpen (some p)
            mkdirFrom turns name path nextDir

/-- The new inode is made and entered in its parent. -/
def mkdirEntry (startDir : Option DirPtr) (name : List UInt8) : DirKernel Unit :=
  match startDir with
  | none => return ()
  | some dir => do
    let sector ← onInodes (freeMapAllocate 1)
    match sector with
    | none => return ()
    | some num =>
      let created ← onInodes (dirCreate num 1)
      let success ← if created then dirAdd dir (cString name) num else pure false
      if success = false ∧ num ≠ 0 then onInodes (freeMapRelease num 1) else return ()

/-- `.` and `..` are entered. -/
def mkdirLevels (startDir : DirPtr) (currNode : Option InodePtr) (currDir : Option DirPtr) :
    DirKernel Bool := do
  let sector ← onInodes (freeMapAllocate 1)
  match sector, currNode with
  | some _, some p =>
    let dir ← nonNull currDir
    let node ← onInodes (getInode p)
    let level ← dirAdd dir [46] node.sector
    if level = false then return false
    else
      let start ← getDir startDir
      let parent ← onInodes (getInode start.inode)
      dirAdd dir [46, 46] parent.sector
  | _, _ => return false

/-- `system_mkdir` after its loop. -/
def mkdirMake (startDir : Option DirPtr) (name : List UInt8) : DirKernel Bool := do
  mkdirEntry startDir name
  let start ← nonNull startDir
  let currNode ← dirLookup start (cString name)
  let currDir ← dirOpen currNode
  let success ← mkdirLevels start currNode currDir
  dirClose startDir
  dirClose currDir
  return success

/-- What the loop of `system_mkdir` comes to: the sector of its directory, the name, and the next
request for memory. -/
structure MkdirPlace where
  dir : BlockSector
  name : List UInt8
  next : ℕ

/-- Where the loop of `system_mkdir` comes to, from a directory of the sector `s`, with inodes of the
sectors `held` open.  It returns false at `some none`; `none` is a call that does not return. -/
def FsState.mkdirWalk (σ : FsState) (held : List BlockSector) :
    ℕ → ℕ → List UInt8 → List UInt8 → BlockSector → Option (Option MkdirPlace)
  | 0, _, _, _, _ => none
  | turns + 1, k, name, path, s =>
    let next := getNextPart name path
    if next.1 = false then some (some ⟨s, next.2.1, k⟩)
    else (entryAt σ.store s (cString next.2.1)).bind fun found =>
      let currFile := σ.openFound (s :: held) found k
      if next.2.2 = [] then
        some (if currFile.1.isSome then none else some ⟨s, next.2.1, currFile.2⟩)
      else currFile.1.elim (some none) fun t =>
        if (σ.store t).isDir = false then some none
        else if σ.memory currFile.2 = false then none
        else σ.mkdirWalk held turns (currFile.2 + 1) next.2.1 next.2.2 t

/-- `system_mkdir` can take no sector after its loop: none is free, or the free map cannot be written
for either of its two sectors.  The inode that it looks up in between may need memory, and
`dir_open` asks for some. -/
def FsState.MkdirStuck (σ : FsState) (held : List BlockSector) (place : MkdirPlace) : Prop :=
  σ.Full ∨ σ.MapRefused place.next ∧ ∃ found,
    entryAt σ.store place.dir (cString place.name) = some found ∧
      σ.MapRefused ((σ.openFound (place.dir :: held) found (place.next + 1)).2 + 1)

section Loop

variable {T : Table} {D₀ D D' : DirState} {gs : List InodeHandle} {k : ℕ} {d : DirPtr}
  {s : BlockSector} {σ : FsState}

/-- **The loop of `system_mkdir`** holds the directory of a sector. -/
structure Enters (T : Table) (D₀ : DirState) (gs : List InodeHandle) (k : ℕ) (s : BlockSector)
    (d : DirPtr) (D : DirState) : Prop where
  going : ∃ p, Going T D₀ (⟨p, s⟩ :: gs) k D ∧ OpenAt D₀ d p D

/-- What a call from there leaves: where it returns false, what it has opened stays open. -/
def MkdirWalks (T : Table) (D₀ : DirState) (gs : List InodeHandle)
    (walk : Option (Option MkdirPlace)) (r : Option (Option DirPtr × List UInt8)) (D : DirState) :
    Prop :=
  (r = none ∧ walk = some none ∧ ∃ h hs k, Going T D₀ (h :: hs ++ gs) k D) ∨
    (∃ d place, r = some (some d, place.name) ∧ walk = some (some place) ∧
      Enters T D₀ gs place.next place.dir d D) ∨
    ∃ name, r = some (none, name)

/-- Without a directory, nothing is looked up. -/
theorem mkdirFrom_none (turns : ℕ) (name path : List UInt8) : Ensures (mkdirFrom turns name path none)
    D fun r _ => ∃ name', r = some (none, name') := by
  cases turns with
  | zero => exact ensures_halt
  | succ turns =>
    unfold mkdirFrom
    rcases getNextPart name path with ⟨found, name', rest⟩
    cases found with
    | false => exact ensures_pure ⟨name', rfl⟩
    | true =>
      intro r D' hrun
      cases hrun

/-- **The loop of `system_mkdir`** comes as far as `mkdirWalk` says, by induction on the turns. -/
theorem Enters.mkdirFrom (h : Enters T D₀ gs k s d D) (turns : ℕ) (name path : List UInt8) :
    Ensures (mkdirFrom turns name path (some d)) D
      (MkdirWalks T D₀ gs (T.fs.mkdirWalk (gs.map Handle.key) turns k name path s)) := by
  induction turns generalizing name path k s d D with
  | zero => exact ensures_halt
  | succ turns ih =>
    unfold Filesys.mkdirFrom FsState.mkdirWalk
    rcases getNextPart name path with ⟨found, name', rest⟩
    dsimp only
    cases found with
    | false =>
      rw [if_pos rfl]
      exact ensures_pure (.inr (.inl ⟨d, ⟨s, name', k⟩, rfl, rfl, h⟩))
    | true =>
      rw [if_neg (by simp)]
      obtain ⟨p, hgoing, hd⟩ := h.going
      refine Ensures.seq (P := fun d' D' => d' = d ∧ D' = D)
        (fun _ _ hrun => by cases hrun; exact ⟨rfl, rfl⟩) fun d' D₁ h₁ => ?_
      obtain ⟨rfl, rfl⟩ := h₁
      refine Ensures.seq (hgoing.dirLookup hd (cString name')) fun r D₂ h₂ => ?_
      obtain ⟨found, g, hentry, rfl, hkey, hstanding⟩ := h₂
      obtain ⟨hgoing₂, hd₂⟩ := hstanding
      rw [hentry, Option.bind_some, List.map_cons] at *
      rw [← hkey]
      by_cases hrest : rest = []
      · rw [if_pos hrest, if_pos hrest]
        cases g with
        | none => exact ensures_pure (.inr (.inl ⟨d', ⟨s, name', _⟩, rfl, rfl, p, hgoing₂, hd₂⟩))
        | some g => exact ensures_pure (.inl ⟨rfl, rfl, g, [⟨p, s⟩], _, hgoing₂⟩)
      rw [if_neg hrest, if_neg hrest]
      cases g with
      | none => exact ensures_pure (.inl ⟨rfl, rfl, ⟨p, s⟩, [], _, hgoing₂⟩)
      | some g =>
        refine Ensures.seq (hgoing₂.isDirAt (h := g) (by simp)).ensures fun kind D₃ h₃ => ?_
        obtain ⟨rfl, rfl⟩ := h₃
        rw [Option.map_some, Option.elim_some]
        cases hdir : (T.fs.store g.key).isDir with
        | false =>
          rw [if_pos rfl, if_pos rfl]
          exact ensures_pure (.inl ⟨rfl, rfl, g, [⟨p, s⟩], _, hgoing₂⟩)
        | true =>
          rw [if_neg (by simp), if_neg (by simp)]
          refine Ensures.seq (hgoing₂.dirClose (g := ⟨p, s⟩) (by simp) hd₂).ensures fun _ D₄ h₄ => ?_
          obtain ⟨hgoing₄, -⟩ := h₄
          rw [Option.toList_some, List.singleton_append, erase_second] at hgoing₄
          refine Ensures.seq (Going.dirOpen (p := g.ptr) (s := g.key) hgoing₄).ensures fun r D₅ h₅ => ?_
          rcases h₅ with ⟨hmem, d₅, rfl, hgoing₅, hd₅, -⟩ | ⟨hmem, rfl, -⟩
          · rw [hmem, if_neg (by simp)]
            exact ih ⟨g.ptr, hgoing₅, hd₅⟩ name' rest
          · intro r D₆ hrun
            exact .inr (.inr (mkdirFrom_none turns name' rest r D₆ hrun))

end Loop

/-! ### After the loop -/

section Make

variable {T : Table} {D₀ D D' : DirState} {gs hs : List InodeHandle} {k : ℕ} {d : DirPtr}
  {q : InodeHandle} {σ : FsState}

/-- **Where no sector can be taken**, no inode is made. -/
theorem Going.mkdirEntry_none (h : Going T D₀ gs k D) (hno : T.fs.NoSector k) (start : DirPtr)
    (name : List UInt8) : Ensures (mkdirEntry (some start) name) D fun _ D' =>
      (T.fs.Full ∧ Going T D₀ gs k D' ∨ Going T D₀ gs (k + 1) D') ∧
      ∀ e q, OpenAt D₀ e q D → OpenAt D₀ e q D' := by
  refine Ensures.seq (h.allocate_none hno).ensures fun sector D₁ h₁ => ?_
  obtain ⟨rfl, hgoing, hkept⟩ := h₁
  exact ensures_pure ⟨hgoing, hkept⟩

/-- **Where no sector can be taken**, `.` and `..` are not entered. -/
theorem Going.mkdirLevels_none (h : Going T D₀ gs k D) (hno : T.fs.NoSector k) (start : DirPtr)
    (currNode : Option InodePtr) (currDir : Option DirPtr) :
    Ensures (mkdirLevels start currNode currDir) D fun r D' => r = false ∧
      (∃ k', Going T D₀ gs k' D') ∧ ∀ e q, OpenAt D₀ e q D → OpenAt D₀ e q D' := by
  refine Ensures.seq (h.allocate_none hno).ensures fun sector D₁ h₁ => ?_
  obtain ⟨rfl, hgoing, hkept⟩ := h₁
  exact ensures_pure ⟨rfl, hgoing.elim (fun h => ⟨_, h.2⟩) fun h => ⟨_, h⟩, hkept⟩

/-- **Where no sector can be taken** nothing is made, and nothing stays open. -/
theorem Going.mkdirMake_none {s : BlockSector} {name : List UInt8}
    (h : Going T D₀ (q :: gs) k D) (hd : OpenAt D₀ d q.ptr D) (hs : q.key = s)
    (hstuck : T.fs.MkdirStuck (gs.map Handle.key) ⟨s, name, k⟩) :
    Ensures (mkdirMake (some d) name) D fun r D' => r = false ∧ ∃ k', Going T D₀ gs k' D' := by
  subst hs
  unfold mkdirMake
  have hno : T.fs.NoSector k := hstuck.imp id fun hrefused => hrefused.1
  refine Ensures.seq (h.mkdirEntry_none hno d name) fun _ D₁ h₁ => ?_
  obtain ⟨hgoing₁, hkept₁⟩ := h₁
  have hd₁ := hkept₁ d _ hd
  -- the second sector is asked for after the inode that `dir_lookup` opens and the directory
  obtain ⟨k₁, hgoing₁, hsecond⟩ : ∃ k₁, Going T D₀ (q :: gs) k₁ D₁ ∧
      ∀ found, entryAt T.fs.store q.key (cString name) = some found →
        T.fs.NoSector ((T.fs.openFound ((q :: gs).map Handle.key) found k₁).2 + 1) := by
    rcases hgoing₁ with ⟨hfull, hgoing₁⟩ | hgoing₁
    · exact ⟨k, hgoing₁, fun _ _ => .inl hfull⟩
    · refine ⟨k + 1, hgoing₁, fun found hfound => ?_⟩
      rcases hstuck with hfull | ⟨-, found', hfound', hrefused⟩
      · exact .inl hfull
      · obtain rfl := Option.some.inj (hfound.symm.trans hfound')
        exact .inr hrefused
  refine Ensures.seq (P := fun d' D' => d' = d ∧ D' = D₁)
    (fun _ _ hrun => by cases hrun; exact ⟨rfl, rfl⟩) fun d' D₁' h₁ => ?_
  obtain ⟨rfl, rfl⟩ := h₁
  refine Ensures.seq (hgoing₁.dirLookup hd₁ (cString name)) fun r D₂ h₂ => ?_
  obtain ⟨found, g, hentry, rfl, -, ⟨hgoing, hd₂⟩⟩ := h₂
  have hno₂ := hsecond found hentry
  cases g with
  | none =>
    have hopen : Returns (Filesys.dirOpen none) D₂ fun r D' => r = none ∧
        Going T D₀ (q :: gs) ((T.fs.openFound ((q :: gs).map Handle.key) found k₁).2 + 1) D' ∧
        OpenAt D₀ d' q.ptr D' :=
      onInodes_seq (P := fun _ σ => Held T (q :: gs) _ σ) ⟨_, _, run_alloc _, hgoing.held.shift⟩
        fun ok σ hσ => returns_pure.2 ⟨rfl, hgoing.over hσ, hd₂.over σ⟩
    refine Ensures.seq hopen.ensures fun currDir D₃ h₃ => ?_
    obtain ⟨rfl, hgoing₃, hd₃⟩ := h₃
    refine Ensures.seq (hgoing₃.mkdirLevels_none hno₂ d' _ _) fun success D₄ h₄ => ?_
    obtain ⟨rfl, ⟨k₄, hgoing₄⟩, hkept₄⟩ := h₄
    refine Ensures.seq (hgoing₄.dirClose List.mem_cons_self (hkept₄ d' _ hd₃)).ensures
      fun _ D₅ h₅ => ?_
    obtain ⟨hgoing₅, -⟩ := h₅
    rw [List.erase_cons_head] at hgoing₅
    exact ensures_pure ⟨rfl, _, hgoing₅⟩
  | some g =>
    have hgoing' : Going T D₀ (⟨g.ptr, g.key⟩ :: q :: gs) _ D₂ := hgoing
    refine Ensures.seq hgoing'.dirOpen.ensures fun currDir D₃ h₃ => ?_
    rcases h₃ with ⟨-, d₃, rfl, hgoing₃, hd₃, hlt, hkept⟩ | ⟨-, rfl, hgoing₃, hkept⟩
    · refine Ensures.seq (hgoing₃.mkdirLevels_none hno₂ d' _ _) fun success D₄ h₄ => ?_
      obtain ⟨rfl, ⟨k₄, hgoing₄⟩, hkept₄⟩ := h₄
      have hne : d₃ ≠ d' := Nat.ne_of_gt (Nat.lt_of_lt_of_le hd₂.next hlt)
      refine Ensures.seq (hgoing₄.dirClose (g := q) (by simp) (hkept₄ d' _ (hkept d' _ hd₂))).ensures
        fun _ D₅ h₅ => ?_
      obtain ⟨hgoing₅, hkept₅⟩ := h₅
      rw [erase_second] at hgoing₅
      refine Ensures.seq (hgoing₅.dirClose List.mem_cons_self
        (hkept₅ d₃ _ hne (hkept₄ d₃ _ hd₃))).ensures fun _ D₆ h₆ => ?_
      obtain ⟨hgoing₆, -⟩ := h₆
      rw [List.erase_cons_head] at hgoing₆
      exact ensures_pure ⟨rfl, _, hgoing₆⟩
    · refine Ensures.seq (hgoing₃.mkdirLevels_none hno₂ d' _ _) fun success D₄ h₄ => ?_
      obtain ⟨rfl, ⟨k₄, hgoing₄⟩, hkept₄⟩ := h₄
      refine Ensures.seq (hgoing₄.dirClose List.mem_cons_self
        (hkept₄ d' _ (hkept d' _ hd₂))).ensures fun _ D₅ h₅ => ?_
      obtain ⟨hgoing₅, -⟩ := h₅
      rw [List.erase_cons_head] at hgoing₅
      exact ensures_pure ⟨rfl, _, hgoing₅⟩

/-! ### What stays open -/

/-- **`dir_lookup`** opens one inode at most. -/
theorem HandlesAre.dirLookup (h : HandlesAre hs D) (d : DirPtr) (name : List UInt8) :
    Ensures (dirLookup d name) D fun r D' => ∃ g : Option InodeHandle, r = g.map Handle.ptr ∧
      HandlesAre (g.toList ++ hs) D' ∧ D'.dirs = D.dirs ∧ D'.nextDir = D.nextDir := by
  refine Ensures.seq (getDir_ensures d D) fun dir D₁ h₁ => ?_
  obtain ⟨-, rfl⟩ := h₁
  refine ensures_onInodes (lookupFrom_preserves dir.inode name maxEntries 0 D₁.fs) fun found σ hσ => ?_
  have hkept : HandlesAre hs (D₁.over σ) := h.of_same ⟨hσ, fun _ => rfl, rfl⟩
  cases found with
  | none => exact ensures_pure ⟨none, rfl, hkept, rfl, rfl⟩
  | some r =>
    obtain ⟨e, ofs⟩ := r
    obtain ⟨T, hinv, hfs, hhandles⟩ := hkept
    intro r D₂ hrun
    dsimp only at hrun
    rw [run_onInodes] at hrun
    obtain ⟨⟨r, σ₂⟩, hopen, hr⟩ := Option.map_eq_some_iff.1 hrun
    obtain ⟨rfl, rfl⟩ := Prod.mk.inj hr
    rw [← hfs] at hopen
    cases r with
    | none => exact ⟨none, rfl, ⟨_, hinv.step (.failed hopen), rfl, hhandles⟩, rfl, rfl⟩
    | some p =>
      refine ⟨some ⟨p, entrySector e⟩, rfl, ⟨_, hinv.step (.opened hopen), rfl, ?_⟩, rfl, rfl⟩
      rw [← hhandles]
      rfl

/-- **`dir_open`** keeps the inode, or closes it. -/
theorem HandlesAre.dirOpen {g : Option InodeHandle} (h : HandlesAre (g.toList ++ hs) D) :
    Ensures (dirOpen (g.map Handle.ptr)) D fun r D' =>
      (r = none ∧ HandlesAre hs D' ∧ D'.dirs = D.dirs) ∨
      ∃ p, g = some p ∧ r = some D.nextDir ∧ HandlesAre (p :: hs) D' ∧
        D'.dirs = Function.update D.dirs D.nextDir (some ⟨p.ptr, 0, 0⟩) := by
  have halloc : Preserves SameTable alloc := ignores_sameTable.alloc
  refine ensures_onInodes (halloc D.fs) fun delivered σ hσ => ?_
  have hkept : HandlesAre (g.toList ++ hs) (D.over σ) := h.of_same ⟨hσ, fun _ => rfl, rfl⟩
  cases g with
  | none => exact ensures_pure (.inl ⟨rfl, hkept, rfl⟩)
  | some g =>
    rw [Option.map_some]
    dsimp only
    split_ifs
    · rw [ensures_get_bind]
      exact ensures_set_bind (ensures_pure (.inr ⟨g, rfl, rfl, hkept, rfl⟩))
    · obtain ⟨T, hinv, hfs, hhandles⟩ := hkept
      refine ensures_onInodes (P := fun _ σ' => (inodeClose g.ptr).run T.fs = some ((), σ'))
        (fun _ σ' hrun => ?_) fun _ σ' hrun => ensures_pure (.inl ⟨rfl, ?_, rfl⟩)
      · rw [hfs]
        exact hrun
      · have hmem : g ∈ T.handles := hhandles ▸ List.mem_cons_self
        refine ⟨_, hinv.step (.closed hmem hrun), rfl, ?_⟩
        dsimp only
        rw [hhandles]
        exact List.erase_cons_head ..

/-- Making the inode and its entry opens and closes nothing. -/
theorem mkdirEntry_sameOpen (startDir : Option DirPtr) (name : List UInt8) :
    Preserves SameOpen (mkdirEntry startDir name) := by
  cases startDir with
  | none => exact preserves_pure SameOpen.refl
  | some dir =>
    refine (onInodes_sameOpen ((sparing_bitmapWrite none).allocate 1)).bind SameOpen.trans
      fun sector => ?_
    cases sector with
    | none => exact preserves_pure SameOpen.refl
    | some num =>
      have hcreate : Preserves SameTable (dirCreate num 1) := by
        unfold dirCreate inodeCreate
        exact createInode_preserves false num _
      refine (onInodes_sameOpen hcreate).bind SameOpen.trans fun created => ?_
      have hfinish (success : Bool) : Preserves SameOpen (if success = false ∧ num ≠ 0 then
          onInodes (freeMapRelease num 1) else pure ()) := by
        split_ifs
        · exact onInodes_sameOpen ((sparing_bitmapWrite none).release num 1)
        · exact preserves_pure SameOpen.refl
      cases created with
      | true => exact (dirAdd_sameOpen dir (cString name) num).bind SameOpen.trans hfinish
      | false => exact hfinish false

/-- Entering `.` and `..` opens and closes nothing. -/
theorem mkdirLevels_sameOpen (startDir : DirPtr) (currNode : Option InodePtr)
    (currDir : Option DirPtr) : Preserves SameOpen (mkdirLevels startDir currNode currDir) := by
  refine (onInodes_sameOpen ((sparing_bitmapWrite none).allocate 1)).bind SameOpen.trans
    fun sector => ?_
  have hfalse : Preserves SameOpen (pure false : DirKernel Bool) := preserves_pure SameOpen.refl
  cases sector with
  | none => exact hfalse
  | some num =>
    cases currNode with
    | none => exact hfalse
    | some p =>
      cases currDir with
      | none =>
        intro D r D' hrun
        cases hrun
      | some dir =>
        have hnode (p : InodePtr) : Preserves SameOpen (onInodes (getInode p)) :=
          onInodes_sameOpen (ignores_sameTable.getInode p)
        have hnonNull : Preserves SameOpen (nonNull (some dir)) := preserves_pure SameOpen.refl
        refine hnonNull.bind SameOpen.trans fun dir => ?_
        refine (hnode p).bind SameOpen.trans fun node => ?_
        refine (dirAdd_sameOpen dir [46] node.sector).bind SameOpen.trans fun level => ?_
        split_ifs
        · exact hfalse
        · have hstart : Preserves SameOpen (getDir startDir) := fun D r D' hrun =>
            (getDir_ensures startDir D r D' hrun).2 ▸ SameOpen.refl D
          refine hstart.bind SameOpen.trans fun start => ?_
          exact (hnode start.inode).bind SameOpen.trans fun parent => dirAdd_sameOpen dir _ _

/-- **The end of `system_mkdir`** closes what it has opened, and the directory it started from. -/
theorem HandlesAre.mkdirMake (h : HandlesAre (q :: hs) D) (hd : (D.dirs d).map Dir.inode = some q.ptr)
    (hlt : d < D.nextDir) (name : List UInt8) :
    Ensures (mkdirMake (some d) name) D fun _ D' => HandlesAre hs D' := by
  unfold Filesys.mkdirMake
  refine Ensures.seq (mkdirEntry_sameOpen (some d) name D) fun _ D₁ hsame₁ => ?_
  refine Ensures.seq (P := fun d' D' => d' = d ∧ D' = D₁)
    (fun _ _ hrun => by cases hrun; exact ⟨rfl, rfl⟩) fun d' D₂ h₂ => ?_
  obtain ⟨rfl, rfl⟩ := h₂
  have hd₁ := (hsame₁.dirs d').trans hd
  have hlt₁ : d' < D₂.nextDir := hsame₁.nextDir ▸ hlt
  refine Ensures.seq ((h.of_same hsame₁).dirLookup d' (cString name)) fun r D₃ h₃ => ?_
  obtain ⟨g, rfl, hhandles₃, hdirs₃, hnext₃⟩ := h₃
  rw [← hdirs₃] at hd₁
  rw [← hnext₃] at hlt₁
  refine Ensures.seq hhandles₃.dirOpen fun currDir D₄ h₄ => ?_
  refine Ensures.seq (mkdirLevels_sameOpen d' _ currDir D₄) fun success D₅ hsame₅ => ?_
  rcases h₄ with ⟨rfl, hhandles₄, hdirs₄⟩ | ⟨p, rfl, rfl, hhandles₄, hdirs₄⟩
  · have hd₄ : (D₄.dirs d').map Dir.inode = some q.ptr := by rw [hdirs₄, hd₁]
    refine Ensures.seq (hhandles₄.closeAfter hd₄ hsame₅) fun _ D₆ h₆ => ?_
    exact ensures_pure h₆
  · have hne : d' ≠ D₃.nextDir := Nat.ne_of_lt hlt₁
    have hd₅ : (D₅.dirs d').map Dir.inode = some q.ptr := by
      rw [hsame₅.dirs, hdirs₄, Function.update_of_ne hne, hd₁]
    have hp₅ : (D₅.dirs D₃.nextDir).map Dir.inode = some p.ptr := by
      rw [hsame₅.dirs, hdirs₄, Function.update_self, Option.map_some]
    obtain ⟨dir, hdir, hptr⟩ := Option.map_eq_some_iff.1 hd₅
    obtain ⟨dir', hdir', hptr'⟩ := Option.map_eq_some_iff.1 hp₅
    refine Ensures.seq ((hhandles₄.of_same hsame₅).dirClose (q := q) (by simp) hdir hptr)
      fun _ D₆ h₆ => ?_
    obtain ⟨hhandles₆, hdirs₆, -⟩ := h₆
    rw [erase_second] at hhandles₆
    have hp₆ : D₆.dirs D₃.nextDir = some dir' := by
      rw [hdirs₆, Function.update_of_ne hne.symm, hdir']
    refine Ensures.seq (hhandles₆.dirClose List.mem_cons_self hp₆ hptr') fun _ D₇ h₇ => ?_
    have hhandles₇ := h₇.1
    rw [List.erase_cons_head] at hhandles₇
    exact ensures_pure hhandles₇

end Make

/-! ### What `system_mkdir` is to do -/

section Whole

variable {T : Table} {D D' : DirState} {x : BlockSector}

/-- Without a directory, `system_mkdir` does not return. -/
theorem mkdirMake_null {name : List UInt8} {r : Bool} (h : (mkdirMake none name).run D = some (r, D')) :
    False := by
  unfold mkdirMake at h
  obtain ⟨_, D₁, hentry, h⟩ := run_bind_cases h
  cases hentry
  cases h

/-- **What stays open after the loop**: what was open before it, and more where it returns false. -/
theorem Enters.leaves {gs : List InodeHandle} {k : ℕ} {s : BlockSector} {d : DirPtr}
    {D₀ : DirState} (h : Enters T D₀ gs k s d D) (turns : ℕ) (name path : List UInt8) :
    Ensures (do
      let found ← Filesys.mkdirFrom turns name path (some d)
      match found with
      | none => return false
      | some (startDir, name) => mkdirMake startDir name) D fun r D' =>
        (∃ hs, HandlesAre (hs ++ (gs ++ T.handles)) D' ∧ (hs = [] →
          ∃ place, T.fs.mkdirWalk (gs.map Handle.key) turns k name path s = some (some place))) ∧
        ∀ place, T.fs.mkdirWalk (gs.map Handle.key) turns k name path s = some (some place) →
          T.fs.MkdirStuck (gs.map Handle.key) place → r = false ∧ ∃ k', Going T D₀ gs k' D' := by
  refine Ensures.seq (h.mkdirFrom turns name path) fun found D₁ h₁ => ?_
  rcases h₁ with ⟨rfl, hwalk, g, hs, k₁, hgoing⟩ | ⟨d₁, place, rfl, hwalk, hat⟩ | ⟨name₁, rfl⟩
  · refine ensures_pure ⟨⟨g :: hs, ?_, fun hnil => absurd hnil (List.cons_ne_nil g hs)⟩, ?_⟩
    · have hhandles := hgoing.handles
      rwa [List.append_assoc] at hhandles
    · intro place hplace
      cases hwalk.symm.trans hplace
  · obtain ⟨p₁, hgoing, hd₁⟩ := hat.going
    obtain ⟨dir, hdir, hptr⟩ := hd₁.dir
    have hinode : (D₁.dirs d₁).map Dir.inode = some p₁ := by rw [hdir, Option.map_some, hptr]
    intro r D' hrun
    refine ⟨⟨[], hgoing.handles.mkdirMake hinode hd₁.next place.name r D' hrun, fun _ => ⟨_, hwalk⟩⟩,
      fun place' hplace hstuck => ?_⟩
    obtain rfl := Option.some.inj (Option.some.inj (hwalk.symm.trans hplace))
    exact hgoing.mkdirMake_none hd₁ rfl hstuck r D' hrun
  · intro r D' hrun
    exact (mkdirMake_null hrun).elim

end Whole

end Filesys
end CS162

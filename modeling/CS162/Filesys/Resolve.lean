/-
# What a path denotes

`projects1-3/src/filesys/filesys.c`, lines 40-78 (`traverse_path`).

In a tree of directories (`DirTree`) a path is resolved part by part, each looked up in what the one
before has led to.  `traverse_path` passes over the parts that are `.`, and looks up in a directory
without a look whether it was removed.  `comes` is where that leads on the other parts
(`FsState.arrives_comes`).

So its directory, inode and name do not belong together where the path's last part is `.` and the
one before does not lead back to where it is looked up, and where a directory on the way was
removed (`traversePath_right`).
-/

import CS162.Basis.Lookups
import CS162.Filesys.CreateTrace

namespace CS162
namespace Filesys

open CS162.Basis

/-! ### Trees of directories -/

/-- A tree of directories on a disk.  `dirs` are the sectors of the directories' inodes. -/
structure DirTree (disk : BlockSector → Sector) where
  dirs : Set BlockSector
  root : rootDirSector ∈ dirs
  /-- `is_dir` is right. -/
  marked : ∀ s ∈ dirs, (disk s).isDir = true
  files : ∀ s ∈ dirs, ∀ name t, entryAt disk s name = some (some t) →
    (disk t).isDir = true → t ∈ dirs
  /-- A directory has a byte wherever it is read. -/
  listed : ∀ s ∈ dirs, ∀ name, ∃ found, entryAt disk s name = some found
  dot : ∀ s ∈ dirs, entryAt disk s [46] = some (some s)
  dotdot : ∀ s ∈ dirs, ∃ t ∈ dirs, entryAt disk s [46, 46] = some (some t)

/-- What a sector's directory has under a name. -/
def childAt (disk : BlockSector → Sector) (s : BlockSector) (name : List UInt8) :
    Option BlockSector :=
  (entryAt disk s name).join

/-- The parts that are not `.`. -/
def namesOf (ws : List (List UInt8)) : List (List UInt8) := ws.filter (· ≠ [46])

theorem childAt_some {disk : BlockSector → Sector} {s t : BlockSector} {name : List UInt8} :
    childAt disk s name = some t ↔ entryAt disk s name = some (some t) := Option.join_eq_some_iff

/-- **In a tree, `.` leads nowhere else.** -/
theorem DirTree.leads_names {disk : BlockSector → Sector} {ok : Set BlockSector} {s u : BlockSector}
    {ws : List (List UInt8)} (t : DirTree disk) (hok : ok ⊆ t.dirs) (hs : s ∈ ok) :
    NamesLead (childAt disk) ok s (namesOf ws) u ↔ NamesLead (childAt disk) ok s ws u := by
  refine namesLead_filter (fun s hs w hdot => ?_) hs
  rw [not_not.1 (of_decide_eq_false hdot)]
  exact childAt_some.2 (t.dot s (hok hs))

/-! ### Where the loop comes -/

/-- Where the loop of `traverse_path` comes on names other than `.`: to a directory, and to what the
last name is there.  It returns false at `some none`; `none` is a call that does not return. -/
def FsState.comes (σ : FsState) : ℕ → BlockSector → Option BlockSector → List (List UInt8) →
    Option (Option (BlockSector × Option BlockSector))
  | _, s, inode, [] => some (some (s, inode))
  | _, _, none, _ :: _ => some none
  | k, _, some s, w :: ws =>
    if (σ.store s).isDir = false then some none
    else if σ.memory k = false then none
    else (entryAt σ.store s w).bind fun found =>
      let inode := σ.openFound [s] found (k + 1)
      σ.comes inode.2 s inode.1 ws

/-- **On short parts, the loop comes there**, with the last part as its name. -/
theorem FsState.arrives_comes {σ : FsState} {turns : ℕ} {path : List UInt8} (hpath : GoodPath path)
    (hturns : path.length < turns) (place : PathPlace) :
    (σ.arrives [] turns path place).map (Option.map fun p => (p.dir, p.inode)) =
      σ.comes place.next place.dir place.inode (namesOf (partsOf path)) ∧
    ∀ p, σ.arrives [] turns path place = some (some p) →
      cString p.name = (partsOf path).getLastD (cString place.name) := by
  induction turns generalizing path place with
  | zero => cases hturns
  | succ turns ih =>
    unfold FsState.arrives
    dsimp only
    cases hparts : partsOf path with
    | nil =>
      rw [getNextPart_end hparts, if_pos rfl]
      refine ⟨rfl, fun p hp => ?_⟩
      cases hp
      rfl
    | cons w ws =>
      obtain ⟨name', rest, hpart, rfl, hrest, rfl, hlt⟩ := getNextPart_part hpath hparts place.name
      rw [hpart, List.getLastD_cons, if_neg (by simp)]
      dsimp only
      have hrestTurns : rest.length < turns := by omega
      by_cases hdot : cString name' = [46]
      · rw [if_pos hdot, namesOf, List.filter_cons_of_neg (by simpa using hdot)]
        exact ih hrest hrestTurns { place with name := name' }
      rw [if_neg hdot, namesOf, List.filter_cons_of_pos (by simpa using hdot)]
      obtain ⟨dir, inode, name, k⟩ := place
      cases inode with
      | none => exact ⟨rfl, fun p hp => by cases hp⟩
      | some s =>
        rw [Option.elim_some, FsState.comes]
        split_ifs
        · exact ⟨rfl, fun p hp => by cases hp⟩
        · exact ⟨rfl, fun p hp => by cases hp⟩
        · cases entryAt σ.store s (cString name') with
          | none => exact ⟨rfl, fun p hp => by cases hp⟩
          | some found => exact ih hrest hrestTurns ⟨s, _, name', _⟩

/-- A name before the last is missing, or its inode gets no memory, or is no directory's. -/
def FsState.Fails (σ : FsState) : ℕ → BlockSector → List (List UInt8) → Prop
  | _, _, [] => False
  | k, s, w :: ws => (σ.store s).isDir = false ∨
      σ.memory k = true ∧ ∃ found, entryAt σ.store s w = some found ∧
        (σ.openFound [s] found (k + 1)).1.elim (ws ≠ []) fun t =>
          σ.Fails (σ.openFound [s] found (k + 1)).2 t ws

/-- Directories and inodes get memory on the way through the names. -/
def FsState.Supplies (σ : FsState) : ℕ → BlockSector → List (List UInt8) → Prop
  | _, _, [] => True
  | k, s, w :: ws => σ.memory k = true ∧ ∀ t, entryAt σ.store s w = some (some t) →
      (σ.opening [s] t (k + 1)).1 = true ∧ σ.Supplies (σ.opening [s] t (k + 1)).2 t ws

section Way

variable {σ : FsState} {k : ℕ} {s s' q u : BlockSector} {held : List BlockSector}
  {found inode : Option BlockSector} {v w : List UInt8} {ws vs : List (List UInt8)}
  {r : Option (BlockSector × Option BlockSector)}

theorem FsState.openFound_some : (σ.openFound held found k).1 = some u ↔
    found = some u ∧ (σ.opening held u k).1 = true := by
  cases found with
  | none => exact iff_of_false nofun fun h => nomatch h.1
  | some t =>
    unfold FsState.openFound
    rw [Option.elim_some]
    by_cases hone : (σ.opening held t k).1 = true
    · rw [if_pos hone]
      exact ⟨fun h => by cases h; exact ⟨rfl, hone⟩, fun h => h.1⟩
    · rw [if_neg hone]
      exact iff_of_false nofun fun h => hone (by cases h.1; exact h.2)

theorem FsState.openFound_eq (h : ∀ u, found = some u → (σ.opening held u k).1 = true) :
    (σ.openFound held found k).1 = found := by
  cases found with
  | none => rfl
  | some u => exact FsState.openFound_some.2 ⟨rfl, h u rfl⟩

/-- **The loop returns false** where a name before the last fails. -/
theorem FsState.comes_false : σ.comes k s' (some s) ws = some none ↔ σ.Fails k s ws := by
  induction ws generalizing k s s' with
  | nil => exact iff_of_false nofun id
  | cons w ws ih =>
    rw [FsState.comes, FsState.Fails]
    cases hdir : (σ.store s).isDir with
    | false => exact iff_of_true (if_pos rfl) (.inl rfl)
    | true =>
      rw [if_neg (by simp), or_iff_right (by simp)]
      cases hmem : σ.memory k with
      | false =>
        rw [if_pos rfl]
        exact iff_of_false nofun fun h => Bool.false_ne_true h.1
      | true =>
        rw [if_neg (by simp), and_iff_right rfl, Option.bind_eq_some_iff]
        refine exists_congr fun found => and_congr_right fun _ => ?_
        dsimp only
        cases (σ.openFound [s] found (k + 1)).1 with
        | some t => exact ih
        | none =>
          cases ws with
          | nil => exact iff_of_false nofun fun h => h rfl
          | cons w' ws => exact iff_of_true rfl (List.cons_ne_nil w' ws)

/-- A turn of the loop in a directory. -/
theorem FsState.comes_cons (hdir : (σ.store s).isDir = true) :
    σ.comes k s' (some s) (w :: ws) = some r ↔ σ.memory k = true ∧ ∃ found,
      entryAt σ.store s w = some found ∧ σ.comes (σ.openFound [s] found (k + 1)).2 s
        (σ.openFound [s] found (k + 1)).1 ws = some r := by
  rw [FsState.comes, hdir, if_neg (by simp)]
  cases hmem : σ.memory k with
  | false =>
    rw [if_pos rfl]
    exact iff_of_false nofun fun h => Bool.false_ne_true h.1
  | true => rw [if_neg (by simp), and_iff_right rfl, Option.bind_eq_some_iff]

/-- **With memory, the loop comes** to the directory of the last name. -/
theorem DirTree.comes (t : DirTree σ.store) (hs : s ∈ t.dirs) (hmem : σ.Supplies k s (vs ++ [v]))
    (hleads : NamesLead (childAt σ.store) t.dirs s vs q)
    (hentry : entryAt σ.store q v = some found) :
    σ.comes k s' (some s) (vs ++ [v]) = some (some (q, found)) := by
  induction vs generalizing k s s' with
  | nil =>
    cases hleads
    obtain ⟨hmem, hall⟩ := hmem
    refine (FsState.comes_cons (t.marked _ hs)).2 ⟨hmem, found, hentry, ?_⟩
    rw [FsState.comes, FsState.openFound_eq fun u hu => (hall u (hu ▸ hentry)).1]
  | cons w vs ih =>
    cases hleads with
    | part hchild ht hrest =>
      have hentry' := childAt_some.1 hchild
      obtain ⟨hmem, hall⟩ := hmem
      obtain ⟨hone, hmem'⟩ := hall _ hentry'
      refine (FsState.comes_cons (t.marked s hs)).2 ⟨hmem, _, hentry', ?_⟩
      rw [FsState.openFound_some.2 ⟨rfl, hone⟩]
      exact ih ht hmem' hrest

/-- The loop comes to a last name through directories only. -/
theorem FsState.isDir_of_comes (h : σ.comes k s' (some s) (vs ++ [v]) = some (some (q, inode))) :
    (σ.store s).isDir = true := by
  by_contra hplain
  rw [Bool.not_eq_true] at hplain
  have hfails : σ.Fails k s (vs ++ [v]) := by
    cases vs with
    | nil => exact .inl hplain
    | cons w vs => exact .inl hplain
  cases h.symm.trans (FsState.comes_false.2 hfails)

/-- **Where the loop comes to the last name**, directories lead there. -/
theorem DirTree.of_comes (t : DirTree σ.store) (hs : s ∈ t.dirs)
    (hcomes : σ.comes k s' (some s) (vs ++ [v]) = some (some (q, inode))) :
    NamesLead (childAt σ.store) t.dirs s vs q ∧ ∃ found, entryAt σ.store q v = some found ∧
      (∀ u, inode = some u → found = some u) ∧ (inode = found → σ.Supplies k s (vs ++ [v])) := by
  induction vs generalizing k s s' with
  | nil =>
    obtain ⟨hmem, found, hentry, hend⟩ := (FsState.comes_cons (t.marked s hs)).1 hcomes
    cases hend
    refine ⟨.here, found, hentry, fun u hu => (FsState.openFound_some.1 hu).1,
      fun heq => ⟨hmem, fun u hu => ?_⟩⟩
    rw [hentry] at hu
    exact ⟨(FsState.openFound_some.1 (heq.trans (Option.some.inj hu))).2, trivial⟩
  | cons w vs ih =>
    obtain ⟨hmem, found, hentry, hrest⟩ := (FsState.comes_cons (t.marked s hs)).1 hcomes
    cases hinode : (σ.openFound [s] found (k + 1)).1 with
    | none =>
      rw [hinode] at hrest
      cases vs <;> cases hrest
    | some u =>
      obtain ⟨rfl, hone⟩ := FsState.openFound_some.1 hinode
      rw [hinode] at hrest
      have hu := t.files s hs w u hentry (FsState.isDir_of_comes hrest)
      obtain ⟨hleads, found', hentry', hfound, hsupplies⟩ := ih hu hrest
      refine ⟨.part (childAt_some.2 hentry) hu hleads, found', hentry', hfound,
        fun heq => ⟨hmem, fun u' hu' => ?_⟩⟩
      rw [hentry] at hu'
      cases hu'
      exact ⟨hone, hsupplies heq⟩

end Way

/-! ### `traverse_path` -/

/-- The directories that are not removed. -/
def DirTree.live {σ : FsState} (t : DirTree σ.store) : Set BlockSector :=
  {s ∈ t.dirs | ¬σ.IsRemoved s}

/-- **The directory, the inode and the name belong together**: the directory is the one of the
sector `u`, the name is `last`, and the inode is what the directory has under it. -/
structure Resolves (σ : FsState) (u : BlockSector) (last : List UInt8) (d : DirPtr)
    (cinode : Option InodePtr) (name : List UInt8) (D' : DirState) : Prop where
  directory : ∃ dir inode, D'.dirs d = some dir ∧ dir.inode ∈ D'.fs.openInodes ∧
    D'.fs.inodes dir.inode = some inode ∧ inode.sector = u
  string : cString name = last
  entry : entryAt σ.store u last = some (cinode.bind fun p => (D'.fs.inodes p).map Inode.sector)
  lookup : Returns (dirLookup d last) D' fun r _ => r = cinode

section Names

variable {σ : FsState} {k : ℕ} {s u : BlockSector} {inode : Option BlockSector} {last : List UInt8}
  {front : List (List UInt8)}

theorem namesOf_concat (hlast : last ≠ [46]) :
    namesOf (front ++ [last]) = namesOf front ++ [last] := by
  unfold namesOf
  rw [List.filter_append, List.filter_cons_of_pos (by simpa using hlast), List.filter_nil]

theorem namesOf_concat_dot : namesOf (front ++ [[46]]) = namesOf front := by
  unfold namesOf
  rw [List.filter_append, List.filter_cons_of_neg (by simp), List.filter_nil, List.append_nil]

/-- **Where the names but the last lead where the parts but the last do**, the loop comes there,
with what the last part is there. -/
theorem DirTree.comes_last (t : DirTree σ.store) (hs : s ∈ t.live)
    (hfront : NamesLead (childAt σ.store) t.live s front u)
    (hnames : NamesLead (childAt σ.store) t.dirs s (namesOf (front ++ [last])).dropLast u)
    (hmem : σ.Supplies k s (namesOf (front ++ [last]))) :
    ∃ inode, σ.comes k s (some s) (namesOf (front ++ [last])) = some (some (u, inode)) ∧
      entryAt σ.store u last = some inode := by
  have hu : u ∈ t.dirs := (hfront.mem hs).1
  by_cases hlast : last = [46]
  · subst hlast
    rw [namesOf_concat_dot] at hnames hmem ⊢
    refine ⟨some u, ?_, t.dot u hu⟩
    have hfront' := (t.leads_names (fun _ h => h.1) hs).2 hfront
    rcases List.eq_nil_or_concat (namesOf front) with hnil | ⟨vs, v, hconcat⟩
    · rw [hnil] at hfront' ⊢
      cases hfront'
      rfl
    · rw [List.concat_eq_append] at hconcat
      rw [hconcat] at hnames hmem hfront' ⊢
      rw [List.dropLast_concat] at hnames
      obtain ⟨q, hvs, hv⟩ := namesLead_append.1 hfront'
      obtain rfl := hvs.unique hnames
      exact t.comes hs.1 hmem hnames (childAt_some.1 (namesLead_singleton.1 hv).1)
  · rw [namesOf_concat hlast] at hnames hmem ⊢
    rw [List.dropLast_concat] at hnames
    obtain ⟨found, hentry⟩ := t.listed u hu last
    exact ⟨found, t.comes hs.1 hmem hnames hentry, hentry⟩

/-- **Where the loop comes to what the last part is**, the names but the last lead there. -/
theorem DirTree.of_comes_last (t : DirTree σ.store) (hs : s ∈ t.live)
    (hfront : NamesLead (childAt σ.store) t.live s front u)
    (hcomes : σ.comes k s (some s) (namesOf (front ++ [last])) = some (some (u, inode)))
    (hentry : entryAt σ.store u last = some inode) :
    NamesLead (childAt σ.store) t.dirs s (namesOf (front ++ [last])).dropLast u ∧
      σ.Supplies k s (namesOf (front ++ [last])) := by
  by_cases hlast : last = [46]
  · subst hlast
    rw [t.dot u (hfront.mem hs).1] at hentry
    obtain rfl := Option.some.inj hentry
    rw [namesOf_concat_dot] at hcomes ⊢
    rcases List.eq_nil_or_concat (namesOf front) with hnil | ⟨vs, v, hconcat⟩
    · rw [hnil] at hcomes ⊢
      cases hcomes
      exact ⟨.here, trivial⟩
    · rw [List.concat_eq_append] at hconcat
      rw [hconcat] at hcomes ⊢
      obtain ⟨hleads, found, -, hfound, hsupplies⟩ := t.of_comes hs.1 hcomes
      rw [List.dropLast_concat]
      exact ⟨hleads, hsupplies (hfound u rfl).symm⟩
  · rw [namesOf_concat hlast] at hcomes ⊢
    obtain ⟨hleads, found, hentry', -, hsupplies⟩ := t.of_comes hs.1 hcomes
    rw [List.dropLast_concat]
    exact ⟨hleads, hsupplies (Option.some.inj (hentry.symm.trans hentry'))⟩

end Names

/-- **What `traverse_path` is to do.**  It returns true if and only if the parts but the last lead
through directories that are not removed. -/
def TraverseRight (x : BlockSector) (path : List UInt8) (D : DirState) (t : DirTree D.fs.store)
    (r : Option (DirPtr × Option InodePtr × List UInt8)) (D' : DirState) : Prop :=
  r.elim
    (∀ u, ¬NamesLead (childAt D.fs.store) t.live (startSector x path) (partsOf path).dropLast u)
    fun (d, cinode, name) => ∃ u last,
      NamesLead (childAt D.fs.store) t.live (startSector x path) (partsOf path).dropLast u ∧
      (partsOf path).getLast? = some last ∧ Resolves D.fs u last d cinode name D'

/-- The condition on `traverse_path`: the directory in which it starts gets memory; and the parts
but the last lead nowhere, and one that is no `.` fails, or the directory in which it starts was
removed; or there is memory on the way, and the parts but the last lead where the names but the last
lead, through directories that are not removed. -/
def TraverseMeets (x : BlockSector) (path : List UInt8) (D : DirState) (t : DirTree D.fs.store) :
    Prop :=
  (D.fs.startsWith [] 0 path).1 = true ∧
    ((∀ u, ¬NamesLead (childAt D.fs.store) t.live (startSector x path) (partsOf path).dropLast u) ∧
      (D.fs.IsRemoved (startSector x path) ∨ D.fs.Fails (D.fs.startsWith [] 0 path).2
        (startSector x path) (namesOf (partsOf path))) ∨
    ∃ u, NamesLead (childAt D.fs.store) t.live (startSector x path) (partsOf path).dropLast u ∧
      NamesLead (childAt D.fs.store) t.dirs (startSector x path)
        (namesOf (partsOf path)).dropLast u ∧
      ¬D.fs.IsRemoved (startSector x path) ∧
      D.fs.Supplies (D.fs.startsWith [] 0 path).2 (startSector x path) (namesOf (partsOf path)))

section Traverse

variable {T : Table} {D D' : DirState} {x : BlockSector} {path : List UInt8} {turns : ℕ}

variable {k : ℕ} {d : DirPtr} {q : InodeHandle} {g : Option InodeHandle} {last name : List UInt8}
  {u : BlockSector} {cinode : Option InodePtr}

/-- The sector of the inode that is held. -/
theorem Standing.sector (h : Standing T D [] k d q g D') :
    ((g.map Handle.ptr).bind fun p => (D'.fs.inodes p).map Inode.sector) = g.map Handle.key := by
  cases g with
  | none => rfl
  | some g =>
    obtain ⟨-, i, hi, hkey⟩ := h.going.held.inode_of (g := g) (by simp)
    rw [Option.map_some, Option.bind_some, hi, Option.map_some, Option.map_some, hkey]

/-- **What is held belongs together** if the directory has the inode under the name. -/
theorem Standing.resolves (h : Standing T D [] k d q g D') (hfs : T.fs = D.fs)
    (hentry : entryAt D.fs.store q.key last = some (g.map Handle.key))
    (hname : cString name = last) :
    Resolves D.fs q.key last d (g.map Handle.ptr) name D' := by
  obtain ⟨dir, hdir, hptr⟩ := h.dir.dir
  obtain ⟨hq, i, hi, hkey⟩ := h.going.held.inode_of (g := q) (by simp)
  refine ⟨⟨dir, i, hdir, hptr.symm ▸ hq, hptr.symm ▸ hi, hkey⟩, hname, ?_, ?_⟩
  · rw [h.sector, hentry]
  obtain ⟨r, hr, hrun⟩ := h.going.run_dirLookup (g := q) (by simp) h.dir last
  rw [hfs] at hr
  obtain ⟨found, rfl, hfound⟩ := Option.map_eq_some_iff.1 (hr.symm.trans hentry)
  unfold Returns
  rw [hrun]
  cases g with
  | none =>
    obtain rfl : found = none := Option.map_eq_none_iff.1 hfound
    exact ⟨none, D', rfl, rfl⟩
  | some g =>
    obtain ⟨⟨e, ofs⟩, rfl, hsector⟩ := Option.map_eq_some_iff.1 hfound
    obtain ⟨hg, j, hj, hgkey⟩ := h.going.held.inode_of (g := g) (by simp)
    show Returns (onInodes (inodeOpen (entrySector e))) D' _
    rw [hsector]
    refine onInodes_returns ?_
    rcases inodeOpen_cases D'.fs g.key with ⟨p, hp, i', hi', hsector', hrun'⟩ | ⟨hnone, -⟩
    · refine ⟨_, _, hrun', ?_⟩
      obtain ⟨g', hg', rfl⟩ := refs_pos.1 (h.going.held.inv.counted.held p hp)
      obtain ⟨-, j', hj', hkey'⟩ := h.going.held.inode_of hg'
      obtain rfl := Option.some.inj (hi'.symm.trans hj')
      rw [h.going.held.inv.counted.share hg' (by simp) (hkey'.symm.trans hsector')]
      rfl
    · exact absurd (hgkey ▸ FsState.cell_of_inode hj) (hnone _ hg _)

/-- The directory that is held is the one. -/
theorem Standing.of_resolves (h : Standing T D [] k d q g D')
    (hres : Resolves D.fs u last d (g.map Handle.ptr) name D') :
    q.key = u ∧ entryAt D.fs.store u last = some (g.map Handle.key) := by
  obtain ⟨dir, hdir, hptr⟩ := h.dir.dir
  obtain ⟨-, i, hi, hkey⟩ := h.going.held.inode_of (g := q) (by simp)
  obtain ⟨dir', i', hdir', -, hi', hkey'⟩ := hres.directory
  obtain rfl := Option.some.inj (hdir.symm.trans hdir')
  rw [hptr] at hi'
  obtain rfl := Option.some.inj (hi.symm.trans hi')
  refine ⟨hkey.symm.trans hkey', ?_⟩
  rw [hres.entry, h.sector]

/-- **`traverse_path` does what it is to do** if and only if the condition is met. -/
theorem traversePath_right (htable : TableInv T) (hfs : T.fs = D.fs) (hin : InDir T x D.workDir D)
    (t : DirTree D.fs.store) (hx : x ∈ t.dirs) (hpath : GoodPath path) (hne : partsOf path ≠ [])
    (hturns : path.length < turns) (name : List UInt8) :
    Returns (traversePath turns path name) D (TraverseRight x path D t) ↔
      TraverseMeets x path D t := by
  have hstart : startSector x path ∈ t.dirs := by
    unfold startSector
    split_ifs
    · exact t.root
    · exact hx
  obtain ⟨front, last, hparts⟩ : ∃ front last, partsOf path = front ++ [last] :=
    ⟨_, _, (List.dropLast_append_getLast hne).symm⟩
  have hstarting : Going T D [] 0 D := ⟨hfs ▸ .start htable, fun _ _ => rfl, Nat.le_refl _⟩
  have hnil : path ≠ [] := fun hnil => hne (hnil ▸ rfl)
  have harrives := hstarting.traversePath_arrives hin turns name hnil
  rw [hfs, List.map_nil] at harrives
  have hcomes := D.fs.arrives_comes hpath hturns ⟨startSector x path, some (startSector x path), name,
    (D.fs.startsWith [] 0 path).2⟩
  unfold TraverseMeets TraverseRight
  rw [hparts] at hcomes ⊢
  rw [List.dropLast_concat, List.getLast?_concat]
  rw [List.getLastD_concat] at hcomes
  dsimp only at hcomes
  rcases harrives with ⟨hmem, hrun⟩ | ⟨hmem, hremoved, hreturns⟩ | ⟨hmem, hremoved, harrives⟩
  · refine iff_of_false ?_ fun hmeets => Bool.false_ne_true (hmem.symm.trans hmeets.1)
    rintro ⟨r, D', hsome, -⟩
    cases hrun.symm.trans hsome
  · rw [and_iff_right hmem]
    obtain ⟨_, D', hrun, rfl, -⟩ := hreturns
    constructor
    · intro hright
      exact .inl ⟨hright.of_run hrun, .inl hremoved⟩
    · rintro (⟨hnowhere, -⟩ | ⟨u, -, -, hnot, -⟩)
      · exact ⟨none, D', hrun, hnowhere⟩
      · exact absurd hremoved hnot
  · rw [and_iff_right hmem, or_iff_right hremoved]
    have hlive : startSector x path ∈ t.live := ⟨hstart, hremoved⟩
    cases hc : D.fs.arrives [] turns path ⟨startSector x path, some (startSector x path), name,
        (D.fs.startsWith [] 0 path).2⟩ with
    | none =>
      rw [hc] at harrives hcomes
      have hnone := hcomes.1.symm
      refine iff_of_false ?_ ?_
      · rintro ⟨r, D', hsome, -⟩
        cases harrives.symm.trans hsome
      · rintro (⟨-, hfails⟩ | ⟨u, hfront, hnames, -, hsupplies⟩)
        · cases hnone.symm.trans (FsState.comes_false.2 hfails)
        · obtain ⟨inode, hsome, -⟩ := t.comes_last hlive hfront hnames hsupplies
          cases hnone.symm.trans hsome
    | some place =>
      rw [hc] at harrives hcomes
      cases place with
      | none =>
        have hfalse := hcomes.1.symm
        obtain ⟨_, D', hrun, rfl, -⟩ := harrives
        constructor
        · intro hright
          exact .inl ⟨hright.of_run hrun, FsState.comes_false.1 hfalse⟩
        · rintro (⟨hnowhere, -⟩ | ⟨u, hfront, hnames, -, hsupplies⟩)
          · exact ⟨none, D', hrun, hnowhere⟩
          · obtain ⟨inode, hsome, -⟩ := t.comes_last hlive hfront hnames hsupplies
            cases hfalse.symm.trans hsome
      | some place =>
        have hplace := hcomes.1.symm
        have hname := hcomes.2 place rfl
        obtain ⟨_, D', hrun, d, q, g, rfl, hq, hg, hstanding⟩ := harrives
        rw [Option.map_some, Option.map_some, ← hq, ← hg] at hplace
        constructor
        · intro hright
          obtain ⟨u, _, hfront, hlast, hres⟩ := hright.of_run hrun
          obtain rfl := Option.some.inj hlast
          obtain ⟨rfl, hentry⟩ := hstanding.of_resolves hres
          obtain ⟨hnames, hsupplies⟩ := t.of_comes_last hlive hfront hplace hentry
          exact .inr ⟨q.key, hfront, hnames, hremoved, hsupplies⟩
        · rintro (⟨-, hfails⟩ | ⟨u, hfront, hnames, -, hsupplies⟩)
          · cases hplace.symm.trans (FsState.comes_false.2 hfails)
          · obtain ⟨inode, hsome, hentry⟩ := t.comes_last hlive hfront hnames hsupplies
            obtain ⟨rfl, rfl⟩ :=
              Prod.mk.inj (Option.some.inj (Option.some.inj (hplace.symm.trans hsome)))
            exact ⟨_, D', hrun, q.key, last, hfront, rfl, hstanding.resolves hfs hentry hname⟩

end Traverse

/-! ### With memory -/

section Memory

variable {σ : FsState} {k : ℕ} {s : BlockSector} {ws : List (List UInt8)}

theorem FsState.Memory.opening {held : List BlockSector} {t : BlockSector} (h : σ.Memory) :
    (σ.opening held t k).1 = true := by
  unfold FsState.opening
  split_ifs
  · rfl
  · exact h k

theorem FsState.Memory.supplies (h : σ.Memory) : σ.Supplies k s ws := by
  induction ws generalizing k s with
  | nil => trivial
  | cons w ws ih => exact ⟨h k, fun t _ => ⟨h.opening, ih⟩⟩

/-- **With memory**, a name fails, or the names but the last lead somewhere. -/
theorem DirTree.fails_or (t : DirTree σ.store) (hmem : σ.Memory) (hs : s ∈ t.dirs) :
    σ.Fails k s ws ∨ ∃ q, NamesLead (childAt σ.store) t.dirs s ws.dropLast q := by
  induction ws generalizing k s with
  | nil => exact .inr ⟨s, .here⟩
  | cons w ws ih =>
    obtain ⟨found, hentry⟩ := t.listed s hs w
    cases ws with
    | nil => exact .inr ⟨s, .here⟩
    | cons w' ws =>
      cases found with
      | none => exact .inl (.inr ⟨hmem k, none, hentry, List.cons_ne_nil w' ws⟩)
      | some u =>
        have hopened : (σ.openFound [s] (some u) (k + 1)).1 = some u :=
          FsState.openFound_some.2 ⟨rfl, hmem.opening⟩
        cases hdir : (σ.store u).isDir with
        | false =>
          refine .inl (.inr ⟨hmem k, some u, hentry, ?_⟩)
          rw [hopened]
          exact .inl hdir
        | true =>
          have hu := t.files s hs w u hentry hdir
          rcases ih (k := (σ.openFound [s] (some u) (k + 1)).2) hu with hfails | ⟨q, hq⟩
          · refine .inl (.inr ⟨hmem k, some u, hentry, ?_⟩)
            rw [hopened]
            exact hfails
          · exact .inr ⟨q, .part (childAt_some.2 hentry) hu hq⟩

theorem DirTree.not_fails {q : BlockSector} (t : DirTree σ.store) (hmem : σ.Memory)
    (hs : s ∈ t.dirs) (hleads : NamesLead (childAt σ.store) t.dirs s ws.dropLast q) : ¬σ.Fails k s ws := by
  intro hfails
  rcases List.eq_nil_or_concat ws with rfl | ⟨vs, v, rfl⟩
  · exact hfails
  · rw [List.concat_eq_append] at hleads hfails
    rw [List.dropLast_concat] at hleads
    obtain ⟨found, hentry⟩ := t.listed q (hleads.mem hs) v
    have hcomes : σ.comes k s (some s) (vs ++ [v]) = some (some (q, found)) :=
      t.comes hs hmem.supplies hleads hentry
    cases hcomes.symm.trans (FsState.comes_false.2 hfails)

/-- Where the parts but the last lead somewhere, so do the names but the last. -/
theorem DirTree.names_lead {u : BlockSector} {front : List (List UInt8)} (t : DirTree σ.store)
    (hs : s ∈ t.live) (hfront : NamesLead (childAt σ.store) t.live s front u) (last : List UInt8) :
    ∃ q, NamesLead (childAt σ.store) t.dirs s (namesOf (front ++ [last])).dropLast q := by
  have hnames := ((t.leads_names (fun _ h => h.1) hs).2 hfront).mono (fun _ h => h.1)
  by_cases hlast : last = [46]
  · rw [hlast, namesOf_concat_dot]
    rcases List.eq_nil_or_concat (namesOf front) with hnil | ⟨vs, v, hconcat⟩
    · rw [hnil]
      exact ⟨s, .here⟩
    · rw [List.concat_eq_append] at hconcat
      rw [hconcat] at hnames ⊢
      rw [List.dropLast_concat]
      obtain ⟨q, hq, -⟩ := namesLead_append.1 hnames
      exact ⟨q, hq⟩
  · rw [namesOf_concat hlast, List.dropLast_concat]
    exact ⟨u, hnames⟩

end Memory

/-- **The condition where there is memory**: the directory to start in is not removed, and where the
names but the last lead, the parts but the last lead too, through directories that are not
removed. -/
theorem traverseMeets_memory {x : BlockSector} {path : List UInt8} {D : DirState}
    (hmem : D.fs.Memory) (t : DirTree D.fs.store) (hx : startSector x path ∈ t.live)
    (hne : partsOf path ≠ []) :
    TraverseMeets x path D t ↔
      ∀ q, NamesLead (childAt D.fs.store) t.dirs (startSector x path)
          (namesOf (partsOf path)).dropLast q →
        NamesLead (childAt D.fs.store) t.live (startSector x path) (partsOf path).dropLast q := by
  obtain ⟨front, last, hparts⟩ : ∃ front last, partsOf path = front ++ [last] :=
    ⟨_, _, (List.dropLast_append_getLast hne).symm⟩
  have hstarts : (D.fs.startsWith [] 0 path).1 = true := by
    unfold FsState.startsWith
    split_ifs
    · dsimp only
      rw [hmem.opening, hmem]
      rfl
    · exact hmem 0
  unfold TraverseMeets
  rw [hparts, List.dropLast_concat, and_iff_right hstarts]
  constructor
  · rintro (⟨-, hremoved | hfails⟩ | ⟨u, hfront, hnames, -⟩) q hq
    · exact absurd hremoved hx.2
    · exact absurd hfails (t.not_fails hmem hx.1 hq)
    · rwa [hq.unique hnames]
  · intro hall
    have hor : D.fs.Fails (D.fs.startsWith [] 0 path).2 (startSector x path)
        (namesOf (front ++ [last])) ∨ _ := t.fails_or hmem hx.1
    rcases hor with hfails | ⟨q, hq⟩
    · refine .inl ⟨fun u hu => ?_, .inr hfails⟩
      obtain ⟨q, hq⟩ := t.names_lead hx hu last
      exact t.not_fails hmem hx.1 hq hfails
    · exact .inr ⟨q, hall q hq, hq, hx.2, hmem.supplies⟩

/-! ### A directory in the root directory -/

/-- An entry in use. -/
def entryBytes (sector : UInt8) (name : List UInt8) : List UInt8 :=
  [sector, 0, 0, 0] ++ name ++ List.replicate (15 - name.length) 0 ++ [1]

/-- A disk with a directory `a` in the root directory. -/
def treeDisk : BlockSector → Sector := fun s =>
  if s = 1 then (newInodeDisk 60 true).setWord 0 2
  else if s = 2 then fun i =>
    (entryBytes 1 [46] ++ entryBytes 1 [46, 46] ++ entryBytes 3 [97]).getD i.val 0
  else if s = 3 then (newInodeDisk 40 true).setWord 0 4
  else if s = 4 then fun i => (entryBytes 3 [46] ++ entryBytes 1 [46, 46]).getD i.val 0
  else newInodeDisk 0 false

section Entries

variable {σ : FsState} {p : InodePtr} {inode : Inode} {ofs : ℕ} {e n : List UInt8}

/-- Reading leaves the state as it was. -/
theorem run_inodeReadAt (hp : σ.inodes p = some inode)
    (hread : ((inodeReadAt p 20 ofs).run σ).map Prod.fst = some e) :
    (inodeReadAt p 20 ofs).run σ = some (e, σ) := by
  obtain ⟨r, hr, -⟩ := Alike.inodeReadAt (σ := σ) rfl hp hp rfl 20 ofs
  rw [hr, Option.map_map] at hread
  obtain ⟨e', rfl, he⟩ := Option.map_eq_some_iff.1 hread
  obtain rfl : e' = e := he
  exact hr

/-- `lookup` reads an entry in use. -/
theorem run_lookupFrom_entry (hp : σ.inodes p = some inode)
    (hread : ((inodeReadAt p 20 ofs).run σ).map Prod.fst = some e) (hlen : e.length = 20)
    (huse : entryInUse e = true) (hname : entryName e = n) (name : List UInt8) (turns : ℕ) :
    (lookupFrom p name (turns + 1) ofs).run σ =
      if name = n then some (some (e, ofs), σ) else (lookupFrom p name turns (ofs + 20)).run σ := by
  rw [lookupFrom, run_bind_of_run (run_inodeReadAt hp hread), if_pos hlen, huse, hname]
  simp only [true_and, eq_comm (b := name)]
  split_ifs <;> rfl

/-- `lookup` comes to the end of the entries. -/
theorem run_lookupFrom_end (hp : σ.inodes p = some inode)
    (hread : ((inodeReadAt p 20 ofs).run σ).map Prod.fst = some []) (name : List UInt8)
    (turns : ℕ) :
    (lookupFrom p name (turns + 1) ofs).run σ = some (none, σ) := by
  rw [lookupFrom, run_bind_of_run (run_inodeReadAt hp hread), if_neg (by simp)]
  rfl

end Entries

theorem entryAt_treeDisk_root (name : List UInt8) : entryAt treeDisk 1 name =
    some (if name = [46] then some 1 else if name = [46, 46] then some 1
      else if name = [97] then some 3 else none) := by
  have hp : (diskOnly treeDisk 1).inodes 0 = some ⟨1, 1, false, 0⟩ := rfl
  have hturns : maxEntries = 134217724 + 1 + 1 + 1 + 1 := rfl
  unfold entryAt lookup
  rw [hturns, run_lookupFrom_entry hp (e := entryBytes 1 [46]) (n := [46]) (by decide +kernel)
      (by decide) (by decide) (by decide),
    run_lookupFrom_entry hp (e := entryBytes 1 [46, 46]) (n := [46, 46]) (by decide +kernel)
      (by decide) (by decide) (by decide),
    run_lookupFrom_entry hp (e := entryBytes 3 [97]) (n := [97]) (by decide +kernel)
      (by decide) (by decide) (by decide),
    run_lookupFrom_end hp (by decide +kernel)]
  split_ifs <;> rfl

theorem entryAt_treeDisk_a (name : List UInt8) : entryAt treeDisk 3 name =
    some (if name = [46] then some 3 else if name = [46, 46] then some 1 else none) := by
  have hp : (diskOnly treeDisk 3).inodes 0 = some ⟨3, 1, false, 0⟩ := rfl
  have hturns : maxEntries = 134217725 + 1 + 1 + 1 := rfl
  unfold entryAt lookup
  rw [hturns, run_lookupFrom_entry hp (e := entryBytes 3 [46]) (n := [46]) (by decide +kernel)
      (by decide) (by decide) (by decide),
    run_lookupFrom_entry hp (e := entryBytes 1 [46, 46]) (n := [46, 46]) (by decide +kernel)
      (by decide) (by decide) (by decide),
    run_lookupFrom_end hp (by decide +kernel)]
  split_ifs <;> rfl

/-- The tree on the disk. -/
def treeDiskTree : DirTree treeDisk where
  dirs := {1, 3}
  root := .inl rfl
  marked s hs := by
    rcases hs with rfl | rfl <;> decide +kernel
  files s hs name t hentry _ := by
    rcases hs with rfl | rfl
    · rw [entryAt_treeDisk_root] at hentry
      split_ifs at hentry <;> cases hentry <;> simp
    · rw [entryAt_treeDisk_a] at hentry
      split_ifs at hentry <;> cases hentry <;> simp
  listed s hs name := by
    rcases hs with rfl | rfl
    · exact ⟨_, entryAt_treeDisk_root name⟩
    · exact ⟨_, entryAt_treeDisk_a name⟩
  dot s hs := by
    rcases hs with rfl | rfl
    · rw [entryAt_treeDisk_root, if_pos rfl]
    · rw [entryAt_treeDisk_a, if_pos rfl]
  dotdot s hs := by
    rcases hs with rfl | rfl
    · exact ⟨1, .inl rfl, by rw [entryAt_treeDisk_root]; rfl⟩
    · exact ⟨1, .inl rfl, by rw [entryAt_treeDisk_a]; rfl⟩

/-- A process in the root directory of that disk. -/
def inTree : DirState := inRoot (fresh 1024 treeDisk)

theorem inTree_memory : inTree.fs.Memory := fun _ => rfl

/-- No directory of the tree was removed. -/
theorem inTree_live : @DirTree.live inTree.fs treeDiskTree = treeDiskTree.dirs := by
  refine Set.Subset.antisymm (fun s hs => hs.1) fun s hs => ⟨hs, ?_⟩
  rintro ⟨p, hp, i, hi, -, hremoved⟩
  obtain rfl : p = 0 := List.mem_singleton.1 hp
  cases hi
  cases hremoved

/-- `/a/../a`. -/
def upAndDown : List UInt8 := [47, 97, 47, 46, 46, 47, 97]

/-- **The path `/a/../a`** is resolved: through `a`, back to the root, and to `a` there. -/
theorem traversePath_right_upAndDown :
    Returns (traversePath 8 upAndDown []) inTree
      (TraverseRight rootDirSector upAndDown inTree treeDiskTree) := by
  have hparts : partsOf upAndDown = [[97], [46, 46], [97]] := by decide
  have hnames : namesOf (partsOf upAndDown) = partsOf upAndDown := by decide
  refine (traversePath_right (inRoot_table treeDisk) rfl (inRoot_inDir treeDisk) treeDiskTree
    (.inl rfl) ⟨by decide, by decide⟩ (by rw [hparts]; simp) (by decide) []).2 ?_
  have hstart : startSector rootDirSector upAndDown ∈ @DirTree.live inTree.fs treeDiskTree :=
    inTree_live ▸ Or.inl rfl
  refine (traverseMeets_memory inTree_memory treeDiskTree hstart (by rw [hparts]; simp)).2
    fun q hq => ?_
  rw [inTree_live]
  rwa [hnames] at hq

theorem run_traversePath_dot : ((traversePath 5 [47, 97, 47, 46] []).run inTree).map (fun r =>
    r.1.map fun (d, _, _) =>
      ((r.2.dirs d).bind fun dir => r.2.fs.inodes dir.inode).map Inode.sector) =
      some (some (some 1)) := by decide +kernel

/-- **For `/a/.`** the directory is the root, where `.` is another directory than `a`. -/
theorem not_traverseRight : ¬Returns (traversePath 5 [47, 97, 47, 46] []) inTree
    (TraverseRight rootDirSector [47, 97, 47, 46] inTree treeDiskTree) := by
  rintro ⟨r, D', hrun, hright⟩
  have hone := run_traversePath_dot
  rw [hrun, Option.map_some, Option.some_inj, Option.map_eq_some_iff] at hone
  obtain ⟨⟨d, cinode, name⟩, rfl, hsector⟩ := hone
  obtain ⟨u, last, hfront, -, hres⟩ := hright
  obtain ⟨dir, inode, hdir, -, hinode, rfl⟩ := hres.directory
  have hroot : inode.sector = 1 := by
    dsimp only at hsector
    rw [hdir, Option.bind_some, hinode, Option.map_some] at hsector
    exact Option.some.inj hsector
  have hparts : (partsOf [47, 97, 47, 46]).dropLast = [[97]] := by decide
  rw [hparts, hroot] at hfront
  have hentry := childAt_some.1 (namesLead_singleton.1 hfront).1
  rw [show startSector rootDirSector [47, 97, 47, 46] = 1 from rfl,
    show inTree.fs.store = treeDisk from rfl, entryAt_treeDisk_root] at hentry
  exact absurd hentry (by decide)

end Filesys
end CS162

/-
# What a file reads where nothing was written

`projects1-3/src/filesys/inode.c`, lines 309-451 and 619-685, over the calls of
`Filesys/FilesBytes.lean`.

`allocate_blocks` zeroes the index blocks that it takes and leaves the data blocks as
they are, so a byte that no write has covered is the one that its sector held before:
the rest of the file's last block, or what a free sector held (`gapByte`).  It reads
as zero where those bytes were zero, and only there (`unwritten_zero_iff`).
-/

import CS162.Filesys.FilesBytes

namespace CS162
namespace Filesys

open CS162.Basis

/-! ### The bytes of a gap -/

/-- Block `b` of an inode at `x` with `blocks` blocks that takes `used` sectors, when it
has grown past it: its own block, or the free sector that it will get. -/
def FsState.nextBlock (σ : FsState) (x : BlockSector) (blocks used b : ℕ) : Sector :=
  if b < blocks then
    match indexPath σ.store x b with
    | some sector => σ.store sector
    | none => Sector.zero
  else
    match σ.freeMap.nth (slots (b + 1) - 1 - used) with
    | some n => σ.store (UInt32.ofNat n)
    | none => Sector.zero

/-- The byte at `j` of an inode of `len` bytes at `x` when it has grown past it. -/
def FsState.gapByte (σ : FsState) (x : BlockSector) (len j : ℕ) : UInt8 :=
  entry (σ.nextBlock x ((len + 511) / 512) (sectorsOf len)) j

/-- The byte at `j` of a new file. -/
def FsState.newByte (σ : FsState) (j : ℕ) : UInt8 := entry (σ.nextBlock 0 0 0) j

section Gaps

variable {σ σ' : FsState} {t t' : Tree} {len : ℕ}

/-- **The index path of a file.** -/
theorem FileAt.indexPath (h : FileAt σ t len) {b : ℕ} (hb : b < t.blocks) :
    indexPath σ.store (t.sector .root) b = some (t.sector (.data b)) :=
  t.indexPath_eq h.placed.linked h.tables
    (fun s hs => h.placed.stored s hs (Set.notMem_empty s)) hb h.capacity

/-- The blocks that a file has grown to are those that were free. -/
theorem FileAt.nextBlock (h : FileAt σ t len) (hg : Grown σ t σ' t') {b : ℕ} (hb : b < t'.blocks) :
    σ.nextBlock (t.sector .root) t.blocks t.used b = σ.store (t'.sector (.data b)) := by
  unfold FsState.nextBlock
  split_ifs with hold
  · rw [h.indexPath hold, hg.keep _ (.inr ⟨b, hold, rfl⟩)]
  · rw [hg.nth b (Nat.le_of_not_lt hold) hb]
    simp only [UInt32.ofNat_toNat]

theorem nextBlock_blank {d : Sector} (hg : Grown σ (.blank d) σ' t') {b : ℕ} (hb : b < t'.blocks) :
    σ.nextBlock 0 0 0 b = σ.store (t'.sector (.data b)) := by
  unfold FsState.nextBlock
  have hnth := hg.nth b (Nat.zero_le b) hb
  rw [show (Tree.blank d).used = 0 from rfl] at hnth
  rw [if_neg (Nat.not_lt_zero b), hnth]
  simp only [UInt32.ofNat_toNat]

/-- Two trees of one file hold the same bytes. -/
theorem FileAt.bytes_unique {len' : ℕ} (h : FileAt σ t len) (h' : FileAt σ t' len')
    (hroot : t.sector .root = t'.sector .root) :
    len = len' ∧ ∀ j < len, t.bytes σ j = t'.bytes σ j := by
  have hlen : len = len' := by
    have hstore := h.toLaid.store_root
    rw [hroot, h'.toLaid.store_root] at hstore
    have hlength := h.length
    rw [← hstore, h'.length] at hlength
    exact (Int.natCast_inj.1 hlength).symm
  subst hlen
  refine ⟨rfl, fun j hj => ?_⟩
  have hpath := h.indexPath (h.lt_blocks hj)
  rw [hroot, h'.indexPath (h'.lt_blocks hj)] at hpath
  exact congrFun (congrArg σ.store (Option.some.inj hpath).symm) _

/-- What the last write left of a gap. -/
theorem Wrote.gap {own : Set BlockSector} {inv : FsState → Prop} {offset : ℕ} {buffer : List UInt8}
    (h : FileAt σ t len) (hw : Wrote own inv σ t len offset buffer σ' t') {j : ℕ} (hj : len ≤ j)
    (hgap : j < offset) : t'.bytes σ' j = σ.gapByte (t.sector .root) len j := by
  have hle := hw.file.len_le
  by_cases hlt : j < 512 * t'.blocks
  · rw [hw.bytes j hlt, overwrite_outside _ (.inl hgap)]
    unfold FsState.gapByte Tree.bytes
    refine entry_congr ?_
    rw [sectorsOf, ← h.blocks, ← h.toLaid.used, h.nextBlock hw.toGrown (by omega)]
  · omega

/-- What making a file left of it. -/
theorem Wrote.new {own : Set BlockSector} {inv : FsState → Prop} {d : Sector}
    (hw : Wrote own inv σ (.blank d) 0 len [] σ' t') {j : ℕ} (hj : j < len) :
    t'.bytes σ' j = σ.newByte j := by
  have hle := hw.file.len_le
  have hlt : j < 512 * t'.blocks := by omega
  rw [hw.bytes j hlt, overwrite_nil]
  unfold FsState.newByte Tree.bytes
  exact entry_congr (nextBlock_blank hw.toGrown (by omega)).symm

end Gaps

/-! ### Runs -/

/-- No write among the calls covers the byte at `j` of the inode at `p`. -/
def Unwritten (done : List (Call × Outcome)) (p : InodePtr) (j : ℕ) : Prop :=
  ∀ buffer offset n, (Call.write p buffer offset, Outcome.wrote n) ∈ done →
    j < offset ∨ offset + n ≤ j

/-- The file at `p` was made by one of the calls. -/
def MadeAt (done : List (Call × Outcome)) (p : InodePtr) : Prop :=
  ∃ length, (Call.make length, Outcome.made (some p)) ∈ done

/-- **Unwritten bytes read as zero**, after the calls in `done`. -/
def ReadsZero (done : List (Call × Outcome)) (σ : FsState) : Prop :=
  ∀ p inode, MadeAt done p → σ.inodes p = some inode → ∀ j : ℕ, Unwritten done p j →
    (j : ℤ) < (σ.store inode.sector).length →
    Returns (inodeReadAt p 1 j) σ fun bytes σ' => σ' = σ ∧ bytes = [0]

/-- They do after each of the calls. -/
def RunZero : List (Call × Outcome) → List Call → FsState → Prop
  | done, [], σ => ReadsZero done σ
  | done, call :: calls, σ => ReadsZero done σ ∧ ∀ out σ',
      call.perform.run σ = some (out, σ') → RunZero (done ++ [(call, out)]) calls σ'

/-- The sectors of the gap that a call leaves hold zeros. -/
def Call.GapZero (σ : FsState) : Call → Prop
  | make length => ∀ j < length, σ.newByte j = 0
  | read .. => True
  | write p _ offset => ∀ inode len, σ.inodes p = some inode →
      (σ.store inode.sector).length = (len : ℕ) →
      ∀ j, len ≤ j → j < offset → σ.gapByte inode.sector len j = 0

/-- All the calls leave such gaps. -/
def GapsZero : List Call → FsState → Prop
  | [], _ => True
  | call :: calls, σ => call.GapZero σ ∧ ∀ out σ',
      call.perform.run σ = some (out, σ') → GapsZero calls σ'

/-! ### What the calls do to a volume -/

/-- What the calls in `done` made of a volume without files. -/
structure Traced (done : List (Call × Outcome)) (a : Volume) : Prop where
  made : ∀ p, MadeAt done p ↔ ∃ x, a.opened p = some x
  known : ∀ {p x}, a.opened p = some x → p < a.next ∧ ∃ file, a.contents x = some file
  inj : ∀ {p p' x}, a.opened p = some x → a.opened p' = some x → p = p'
  writes : ∀ {p buffer offset n}, (Call.write p buffer offset, Outcome.wrote n) ∈ done →
    ∃ x file, a.opened p = some x ∧ a.contents x = some file ∧ offset + n ≤ file.length

/-- Unwritten bytes of a volume are zero. -/
def ZeroIn (done : List (Call × Outcome)) (a : Volume) : Prop :=
  ∀ p x file j, a.opened p = some x → a.contents x = some file → j < file.length →
    Unwritten done p j → file[j]? = some 0

/-- The gap that a call leaves is zero. -/
def Call.GapIn (a a' : Volume) : Call → Prop
  | make _ => ∀ x file, a'.contents x = some file → a.contents x = none →
      ∀ j < file.length, file[j]? = some 0
  | read .. => True
  | write p _ offset => ∀ x file file', a.opened p = some x → a.contents x = some file →
      a'.contents x = some file' → ∀ j, file.length ≤ j → j < offset → file'[j]? = some 0

section Volumes

variable {done : List (Call × Outcome)} {a a' : Volume} {call : Call} {out : Outcome}

theorem madeAt_append {p : InodePtr} : MadeAt (done ++ [(call, out)]) p ↔
    MadeAt done p ∨ ∃ length, call = .make length ∧ out = .made (some p) := by
  simp only [MadeAt, List.mem_append, List.mem_singleton, Prod.mk.injEq]
  constructor
  · rintro ⟨length, hmem | ⟨rfl, rfl⟩⟩
    · exact .inl ⟨length, hmem⟩
    · exact .inr ⟨length, rfl, rfl⟩
  · rintro (⟨length, hmem⟩ | ⟨length, rfl, rfl⟩)
    · exact ⟨length, .inl hmem⟩
    · exact ⟨length, .inr ⟨rfl, rfl⟩⟩

theorem Unwritten.of_append {p : InodePtr} {j : ℕ} (h : Unwritten (done ++ [(call, out)]) p j) :
    Unwritten done p j :=
  fun buffer offset n hmem => h buffer offset n (List.mem_append.2 (.inl hmem))

/-- **The calls are traced.** -/
theorem Traced.step (h : Traced done a) (hideal : call.Ideal a out a') :
    Traced (done ++ [(call, out)]) a' := by
  cases hideal with
  | @make length x file free hx hlength hfree =>
    have hne : ∀ {p y}, a.opened p = some y → p ≠ a.next := fun hp => Nat.ne_of_lt (h.known hp).1
    refine ⟨fun p => ?_, fun {p y} hp => ?_, fun {p p' y} hp hp' => ?_, fun {p b o n} hmem => ?_⟩
    · rw [madeAt_append, h.made]
      by_cases hp : p = a.next
      · subst hp
        dsimp only
        rw [Function.update_self]
        exact iff_of_true (.inr ⟨length, rfl, rfl⟩) ⟨x, rfl⟩
      · dsimp only
        rw [Function.update_of_ne hp]
        refine ⟨fun hor => hor.resolve_right ?_, .inl⟩
        rintro ⟨-, -, heq⟩
        exact hp (Option.some.inj (Outcome.made.inj heq)).symm
    · dsimp only at hp ⊢
      by_cases hpn : p = a.next
      · subst hpn
        rw [Function.update_self] at hp
        obtain rfl := Option.some.inj hp
        exact ⟨Nat.lt_succ_self _, file, Function.update_self ..⟩
      · rw [Function.update_of_ne hpn] at hp
        obtain ⟨hlt, file', hfile'⟩ := h.known hp
        refine ⟨Nat.lt_succ_of_lt hlt, file', ?_⟩
        rw [Function.update_of_ne, hfile']
        rintro rfl
        rw [hx] at hfile'
        cases hfile'
    · dsimp only at hp hp'
      -- the new file is at a sector where there was none
      have hfresh : ∀ {q}, a.opened q = some x → False := fun hq => by
        obtain ⟨-, file', hfile'⟩ := h.known hq
        rw [hx] at hfile'
        cases hfile'
      by_cases hpn : p = a.next <;> by_cases hpn' : p' = a.next
      · rw [hpn, hpn']
      · rw [hpn, Function.update_self] at hp
        rw [Function.update_of_ne hpn'] at hp'
        obtain rfl := Option.some.inj hp
        exact (hfresh hp').elim
      · rw [hpn', Function.update_self] at hp'
        rw [Function.update_of_ne hpn] at hp
        obtain rfl := Option.some.inj hp'
        exact (hfresh hp).elim
      · rw [Function.update_of_ne hpn] at hp
        rw [Function.update_of_ne hpn'] at hp'
        exact h.inj hp hp'
    · rcases List.mem_append.1 hmem with hmem | hmem
      · obtain ⟨y, file', hp, hy, hle⟩ := h.writes hmem
        refine ⟨y, file', ?_, ?_, hle⟩
        · exact (Function.update_of_ne (hne hp) ..).trans hp
        · refine (Function.update_of_ne ?_ ..).trans hy
          rintro rfl
          rw [hx] at hy
          cases hy
      · cases List.mem_singleton.1 hmem
  | read hp hx =>
    refine ⟨fun p => ?_, h.known, h.inj, fun {p b o n} hmem => ?_⟩
    · rw [madeAt_append, ← h.made]
      refine ⟨fun hor => hor.resolve_right ?_, .inl⟩
      rintro ⟨length, heq, -⟩
      cases heq
    · rcases List.mem_append.1 hmem with hmem | hmem
      · exact h.writes hmem
      · cases List.mem_singleton.1 hmem
  | @write p buffer offset x file file' free hp hx hlength hbuffer hkeep hfree =>
    refine ⟨fun q => ?_, fun {q y} hq => ?_, h.inj, fun {q b o n} hmem => ?_⟩
    · rw [madeAt_append, ← h.made]
      refine ⟨fun hor => hor.resolve_right ?_, .inl⟩
      rintro ⟨length, heq, -⟩
      cases heq
    · obtain ⟨hlt, file₁, hfile₁⟩ := h.known hq
      refine ⟨hlt, ?_⟩
      dsimp only
      by_cases hy : y = x
      · exact ⟨file', hy ▸ Function.update_self ..⟩
      · exact ⟨file₁, (Function.update_of_ne hy ..).trans hfile₁⟩
    · dsimp only
      rcases List.mem_append.1 hmem with hmem | hmem
      · obtain ⟨y, file₁, hq, hy, hle⟩ := h.writes hmem
        by_cases hyx : y = x
        · subst hyx
          obtain rfl := Option.some.inj (hx.symm.trans hy)
          exact ⟨y, file', hq, Function.update_self .., by omega⟩
        · exact ⟨y, file₁, hq, (Function.update_of_ne hyx ..).trans hy, hle⟩
      · cases List.mem_singleton.1 hmem
        exact ⟨x, file', hp, Function.update_self .., by omega⟩

/-- A call on a volume keeps unwritten bytes zero where the gap that it leaves is zero. -/
theorem ZeroIn.step (h : ZeroIn done a) (htraced : Traced done a) (hideal : call.Ideal a out a')
    (hgap : call.GapIn a a') : ZeroIn (done ++ [(call, out)]) a' := by
  have hunwritten : ∀ {p j}, Unwritten (done ++ [(call, out)]) p j → Unwritten done p j :=
    fun h => h.of_append
  cases hideal with
  | @make length x file free hx hlength hfree =>
    intro p y file' j hp hy hj hno
    dsimp only at hp hy
    by_cases hyx : y = x
    · subst hyx
      rw [Function.update_self] at hy
      obtain rfl := Option.some.inj hy
      exact hgap y file (Function.update_self ..) hx j hj
    · rw [Function.update_of_ne hyx] at hy
      have hpn : p ≠ a.next := by
        rintro rfl
        rw [Function.update_self] at hp
        exact hyx (Option.some.inj hp).symm
      rw [Function.update_of_ne hpn] at hp
      exact h p y file' j hp hy hj (hunwritten hno)
  | read hp hx => exact fun p y file j hp hy hj hno => h p y file j hp hy hj (hunwritten hno)
  | @write p buffer offset x file file' free hp hx hlength hbuffer hkeep hfree =>
    intro q y file₁ j hq hy hj hno
    dsimp only at hq hy
    by_cases hyx : y = x
    · subst hyx
      rw [Function.update_self] at hy
      obtain rfl := Option.some.inj hy
      obtain rfl := htraced.inj hp hq
      have hout := hno buffer offset buffer.length
        (List.mem_append_right _ (List.mem_singleton_self _))
      by_cases hold : j < file.length
      · rw [hkeep j hold hout]
        exact h p y file j hp hx hold (hunwritten hno)
      · refine hgap y file file' hp hx (Function.update_self ..) j (Nat.le_of_not_lt hold) ?_
        omega
    · rw [Function.update_of_ne hyx] at hy
      exact h q y file₁ j hq hy hj (hunwritten hno)

/-- The gap of the last call is unwritten. -/
theorem ZeroIn.gapIn (h : ZeroIn (done ++ [(call, out)]) a') (htraced : Traced done a)
    (hideal : call.Ideal a out a') : call.GapIn a a' := by
  cases hideal with
  | @make length x file free hx hlength hfree =>
    intro y file' hy hy' j hj
    have hyx : y = x := by
      by_contra hne
      dsimp only at hy
      rw [Function.update_of_ne hne, hy'] at hy
      cases hy
    refine h a.next y file' j ?_ hy hj fun buffer offset n hmem => ?_
    · rw [hyx]
      exact Function.update_self ..
    · rcases List.mem_append.1 hmem with hmem | hmem
      · obtain ⟨y', file₀, hp, -⟩ := htraced.writes hmem
        exact absurd (htraced.known hp).1 (Nat.lt_irrefl _)
      · cases List.mem_singleton.1 hmem
  | read hp hx => trivial
  | @write p buffer offset x file file' free hp hx hlength hbuffer hkeep hfree =>
    intro y file₀ file₁ hp' hy hy' j hj hoff
    obtain rfl := Option.some.inj (hp.symm.trans hp')
    obtain rfl := Option.some.inj (hx.symm.trans hy)
    have heq : file' = file₁ := by
      dsimp only at hy'
      rw [Function.update_self] at hy'
      exact Option.some.inj hy'
    refine h p x file₁ j hp hy' ?_ fun buffer₀ offset₀ n hmem => ?_
    · rw [← heq]
      omega
    · rcases List.mem_append.1 hmem with hmem | hmem
      · -- what was written before is part of the file
        obtain ⟨y', file₂, hp₂, hy₂, hle⟩ := htraced.writes hmem
        obtain rfl := Option.some.inj (hp.symm.trans hp₂)
        obtain rfl := Option.some.inj (hx.symm.trans hy₂)
        exact .inr (hle.trans hj)
      · cases List.mem_singleton.1 hmem
        exact .inl hoff

end Volumes

/-! ### What the calls do to a device -/

section Device

variable {fm : Tree} {files files' : FileTable} {σ σ' : FsState} {a a' : Volume}
  {done : List (Call × Outcome)} {out : Outcome}

theorem Represents.getElem (h : Represents fm files σ a) {x : BlockSector} {file : List UInt8}
    (hx : a.contents x = some file) {t : Tree} {len : ℕ} (hfile : FileAt σ t len)
    (hroot : t.sector .root = x) : file.length = len ∧ ∀ j < len, file[j]? = some (t.bytes σ j) := by
  obtain ⟨f, hf, rfl, hlen⟩ := h.file hx
  obtain ⟨rfl, hbytes⟩ := (h.sideBySide.fileAt hf).bytes_unique hfile
    ((h.sideBySide.root hf).trans hroot.symm)
  refine ⟨hlen, fun j hj => ?_⟩
  rw [List.getElem?_eq_getElem (by rw [hlen]; exact hj), ← hbytes j hj]
  simp only [fileBytes, getElem_run, Nat.zero_add]

/-- **The gap of a write** is what its sectors held. -/
theorem Represents.gap (h : Represents fm files σ a) {p : InodePtr} {buffer : List UInt8}
    {offset : ℕ} (hfits : (Call.write p buffer offset).Fits a)
    (hrun : (Call.write p buffer offset).perform.run σ = some (out, σ'))
    (h' : Represents fm files' σ' a') {x : BlockSector} {file file' : List UInt8}
    (hp : a.opened p = some x) (hx : a.contents x = some file) (hx' : a'.contents x = some file')
    {j : ℕ} (hj : file.length ≤ j) (hoff : j < offset) :
    file'[j]? = some (σ.gapByte x file.length j) := by
  have hmax : maxLength = 512 * capacity := rfl
  obtain ⟨y, file₀, hp₀, hy, hend, hroom⟩ := hfits
  obtain rfl := Option.some.inj (hp₀.symm.trans hp)
  obtain rfl := Option.some.inj (hy.symm.trans hx)
  obtain ⟨f, hf, -, hlen⟩ := h.file hx
  obtain ⟨inode, hinode, rfl, hdeny⟩ := h.opened p _ hp
  have hfile := h.sideBySide.fileAt hf
  have henough := h.enough hf (hlen ▸ hroom)
  rcases h.sideBySide.inodeWriteAt_cases hinode hf hdeny (hmax ▸ hend) with hok | ⟨hno, -⟩
  · unfold Call.perform at hrun
    obtain ⟨n, σ₁, hrun₁, hret⟩ := run_bind_cases hrun
    obtain ⟨-, t', hw⟩ := hok.of_run hrun₁
    cases hret
    have hroot := h.sideBySide.root hf
    have hroot' : t'.sector .root = inode.sector :=
      (hw.keep .root (.inl hfile.placed.root)).trans hroot
    obtain ⟨-, hbytes⟩ := h'.getElem hx' hw.file hroot'
    rw [hlen] at hj ⊢
    rw [hbytes j (by omega), hw.gap hfile hj hoff, hroot]
  · exact absurd henough hno

/-- **The bytes of a new file** are what its sectors held. -/
theorem Represents.newGap (h : Represents fm files σ a) {length : ℕ}
    (hfits : (Call.make length).Fits a)
    (hrun : (Call.make length).perform.run σ = some (out, σ'))
    (hideal : (Call.make length).Ideal a out a') (h' : Represents fm files' σ' a')
    {x : BlockSector} {file : List UInt8} (hx' : a'.contents x = some file)
    (hx : a.contents x = none) :
    file.length = length ∧ ∀ j < length, file[j]? = some (σ.newByte j) := by
  have hcapacity : capacity = 16524 := rfl
  have hmax : maxLength = 512 * capacity := rfl
  obtain ⟨hlength, hroom⟩ := hfits
  rw [hmax] at hlength
  unfold Call.perform at hrun
  obtain ⟨p, σ₂, hrun₂, hret⟩ := run_bind_cases hrun
  cases hret
  rcases (h.sideBySide.makeFile_returns (by omega : length < 2 ^ 31)).of_run hrun₂ with
    ⟨-, σ₁, t', hmade⟩ | ⟨-, hno⟩
  · have hw := hmade.wrote hlength
    have hfile := hw.file
    rw [List.length_nil, Nat.add_zero, Nat.zero_max] at hfile
    have hfile₂ : FileAt σ' t' length := by
      rw [hmade.opened]
      exact hfile.congr fun _ _ => rfl
    -- the new file's inode is the one that was opened
    have hroot : t'.sector .root = x := by
      cases hideal with
      | @make _ x₀ file₀ free hx₀ hlength₀ hfree₀ =>
        have hxx : x = x₀ := by
          by_contra hne
          dsimp only at hx'
          rw [Function.update_of_ne hne, hx] at hx'
          cases hx'
        obtain ⟨inode, hinode, hsector, -⟩ := h'.opened a.next x₀ (Function.update_self ..)
        have hnext : σ₁.nextPtr = a.next := hmade.altered.same.nextPtr.trans h.next
        have hnew : σ'.inodes a.next = some ⟨t'.sector .root, 1, false, 0⟩ := by
          rw [hmade.opened, ← hnext]
          exact Function.update_self ..
        obtain rfl := Option.some.inj (hnew.symm.trans hinode)
        exact hsector.trans hxx.symm
    obtain ⟨hlen, hbytes⟩ := h'.getElem hx' hfile₂ hroot
    refine ⟨hlen, fun j hj => ?_⟩
    have hsame : t'.bytes σ' j = t'.bytes σ₁ j := by
      rw [hmade.opened]
      rfl
    rw [hbytes j hj, hsame, hw.new hj]
  · rw [bytesToSectors_of_lt (by omega)] at hno
    exact absurd ⟨h.memory, by rw [h.free]; exact hroom⟩ hno

/-- The inode of a file of the volume. -/
theorem Represents.inode (h : Represents fm files σ a) {p : InodePtr} {x : BlockSector}
    {file : List UInt8} (hp : a.opened p = some x) (hx : a.contents x = some file) :
    ∃ inode, σ.inodes p = some inode ∧ inode.sector = x ∧ (σ.store x).length = (file.length : ℤ) := by
  obtain ⟨inode, hinode, hsector, -⟩ := h.opened p x hp
  obtain ⟨f, hf, -, hlen⟩ := h.file hx
  have hfile := h.sideBySide.fileAt hf
  refine ⟨inode, hinode, hsector, ?_⟩
  rw [← h.sideBySide.root hf, hfile.toLaid.store_root, hfile.length, hlen]

/-- The gap on the device is the volume's. -/
theorem Represents.gapZero_iff (h : Represents fm files σ a) {call : Call} (hfits : call.Fits a)
    (hrun : call.perform.run σ = some (out, σ')) (hideal : call.Ideal a out a')
    (h' : Represents fm files' σ' a') : call.GapZero σ ↔ call.GapIn a a' := by
  cases call with
  | make length =>
    constructor
    · intro hgap x file hx' hx j hj
      obtain ⟨hlen, hbytes⟩ := h.newGap hfits hrun hideal h' hx' hx
      rw [hlen] at hj
      rw [hbytes j hj, hgap j hj]
    · intro hgap j hj
      cases hid : hideal with
      | @make _ x file free hx hlength hfree =>
        have hx' : Function.update a.contents x (some file) x = some file := Function.update_self ..
        obtain ⟨-, hbytes⟩ := h.newGap hfits hrun hideal h' hx' hx
        have hbyte := hgap x file hx' hx j (hlength.symm ▸ hj)
        rw [hbytes j hj] at hbyte
        exact Option.some.inj hbyte
  | read p size offset => exact Iff.rfl
  | write p buffer offset =>
    constructor
    · intro hgap x file file' hp hx hx' j hj hoff
      obtain ⟨inode, hinode, rfl, hlength⟩ := h.inode hp hx
      rw [h.gap hfits hrun h' hp hx hx' hj hoff, hgap inode _ hinode hlength j hj hoff]
    · intro hgap inode len hinode hlen j hj hoff
      cases hid : hideal with
      | @write _ _ _ x file file' free hp hx hlength hbuffer hkeep hfree =>
        obtain ⟨inode', hinode', rfl, hlen'⟩ := h.inode hp hx
        obtain rfl := Option.some.inj (hinode.symm.trans hinode')
        obtain rfl := Int.natCast_inj.1 (hlen.symm.trans hlen')
        have hx' : Function.update a.contents inode.sector (some file') inode.sector = some file' :=
          Function.update_self ..
        have hbyte := hgap _ file file' hp hx hx' j hj hoff
        rw [h.gap hfits hrun h' hp hx hx' hj hoff] at hbyte
        exact Option.some.inj hbyte

/-- The bytes that a device reads are the volume's. -/
theorem Represents.readsZero_iff (h : Represents fm files σ a) (htraced : Traced done a) :
    ReadsZero done σ ↔ ZeroIn done a := by
  -- a byte as it is read
  have hread : ∀ {p x file inode}, a.opened p = some x → a.contents x = some file →
      σ.inodes p = some inode → ∀ j < file.length, ∃ b, file[j]? = some b ∧
        (inodeReadAt p 1 j).run σ = some ([b], σ) := by
    intro p x file inode hp hx hinode j hj
    obtain ⟨inode', hinode', rfl, -⟩ := h.opened p x hp
    obtain rfl := Option.some.inj (hinode.symm.trans hinode')
    obtain ⟨f, hf, -, -⟩ := h.file hx
    obtain ⟨hlen, hbytes⟩ := h.getElem hx (h.sideBySide.fileAt hf) (h.sideBySide.root hf)
    rw [hlen] at hj
    obtain ⟨bytes, σ', hrun, rfl, rfl⟩ := h.sideBySide.inodeReadAt_returns hinode hf 1 j
    rw [Nat.min_eq_left (by omega)] at hrun
    exact ⟨_, hbytes j hj, hrun⟩
  constructor
  · intro hzero p x file j hp hx hj hno
    obtain ⟨inode, hinode, rfl, hlen⟩ := h.inode hp hx
    obtain ⟨b, hb, hrun⟩ := hread hp hx hinode j hj
    obtain ⟨-, hbyte⟩ := (hzero p inode ((htraced.made p).2 ⟨_, hp⟩) hinode j hno
      (by rw [hlen]; exact Int.ofNat_lt.2 hj)).of_run hrun
    rw [hb, List.singleton_inj.1 hbyte]
  · intro hzero p inode hmade hinode j hno hj
    obtain ⟨x, hp⟩ := (htraced.made p).1 hmade
    obtain ⟨-, file, hx⟩ := htraced.known hp
    obtain ⟨inode', hinode', rfl, hlen⟩ := h.inode hp hx
    obtain rfl := Option.some.inj (hinode.symm.trans hinode')
    rw [hlen, Int.ofNat_lt] at hj
    obtain ⟨b, hb, hrun⟩ := hread hp hx hinode j hj
    have hbyte := hzero p _ file j hp hx hj hno
    rw [hb, Option.some.injEq] at hbyte
    exact ⟨_, _, hrun, rfl, congrArg (fun b => [b]) hbyte⟩

/-- **A call that fits.** -/
theorem Represents.perform (h : Represents fm files σ a) {call : Call} (hfits : call.Fits a) :
    Returns call.perform σ fun out σ' => ∃ files' a', call.Ideal a out a' ∧
      Represents fm files' σ' a' := by
  cases call with
  | make length => exact h.make hfits
  | read p size offset => exact h.read hfits
  | write p buffer offset => exact h.write hfits

theorem RunZero.readsZero {calls : List Call} (h : RunZero done calls σ) : ReadsZero done σ := by
  cases calls with
  | nil => exact h
  | cons call calls => exact h.1

/-- **Runs**, by induction on the calls. -/
theorem Represents.runZero_iff {calls : List Call} (h : Represents fm files σ a)
    (htraced : Traced done a) (hzero : ZeroIn done a) (hfits : FitsAll calls a) :
    RunZero done calls σ ↔ GapsZero calls σ := by
  induction calls generalizing files σ a done with
  | nil => exact iff_of_true ((h.readsZero_iff htraced).2 hzero) trivial
  | cons call calls ih =>
    -- after the call, as long as its gap is zero
    have hrest : call.GapZero σ → ∀ out σ', call.perform.run σ = some (out, σ') →
        (RunZero (done ++ [(call, out)]) calls σ' ↔ GapsZero calls σ') := by
      intro hgap out σ' hrun
      obtain ⟨files', a', hideal, h'⟩ := (h.perform hfits.1).of_run hrun
      exact ih h' (htraced.step hideal)
        (hzero.step htraced hideal ((h.gapZero_iff hfits.1 hrun hideal h').1 hgap))
        (hfits.2 out a' hideal)
    constructor
    · rintro ⟨-, hruns⟩
      have hgap : call.GapZero σ := by
        obtain ⟨out, σ', hrun, files', a', hideal, h'⟩ := h.perform hfits.1
        refine (h.gapZero_iff hfits.1 hrun hideal h').2 (ZeroIn.gapIn ?_ htraced hideal)
        exact (h'.readsZero_iff (htraced.step hideal)).1 (hruns out σ' hrun).readsZero
      exact ⟨hgap, fun out σ' hrun => (hrest hgap out σ' hrun).1 (hruns out σ' hrun)⟩
    · rintro ⟨hgap, hgaps⟩
      exact ⟨(h.readsZero_iff htraced).2 hzero, fun out σ' hrun =>
        (hrest hgap out σ' hrun).2 (hgaps out σ' hrun)⟩

end Device

/-- **Unwritten bytes read as zero** in every state of a run of calls that fit if and only if the
sectors of the gaps that they leave held zeros.  The files that are there at the start are not
open. -/
theorem unwritten_zero_iff {fm : Tree} {files : FileTable} {σ : FsState} {a : Volume}
    {calls : List Call} (h : Represents fm files σ a) (hclosed : ∀ p, a.opened p = none)
    (hfits : FitsAll calls a) : RunZero [] calls σ ↔ GapsZero calls σ := by
  have hnone : ∀ {p x}, a.opened p ≠ some x := fun {p x} hp => by
    rw [hclosed] at hp
    cases hp
  refine h.runZero_iff ⟨fun p => ?_, fun hp => absurd hp hnone, fun hp => absurd hp hnone, ?_⟩ ?_ hfits
  · refine iff_of_false ?_ fun ⟨x, hx⟩ => hnone hx
    rintro ⟨length, hmem⟩
    cases hmem
  · intro p buffer offset n hmem
    cases hmem
  · exact fun p x file j hp => absurd hp hnone

/-! ### A device with what earlier files left -/

section Dirty

variable {fm : Tree} {files : FileTable} {σ : FsState}

/-- A free sector is not one of the free map's file. -/
theorem Files.free_notMem (h : Files fm files σ) (hopen : σ.freeMapFile ≠ none) {n : ℕ}
    (hn : n ∈ σ.freeMap.free) : UInt32.ofNat n ∉ fm.sectors := by
  have hcapacity : capacity = 16524 := rfl
  have hfile := h.freeMap.file hopen
  have hlen := hfile.len_le
  have hcap := hfile.capacity
  have hbytes : σ.freeMap.byteCnt = 4 * ((σ.freeMap.bitCnt + 31) / 32) := rfl
  obtain ⟨hlt, hbit⟩ := Bitmap.mem_free.1 hn
  have hnat : (UInt32.ofNat n).toNat = n := UInt32.toNat_ofNat_of_lt' (by
    rw [UInt32.size]
    omega)
  intro hmem
  have htaken := h.reserved.own _ hmem
  rw [hnat, hbit] at htaken
  cases htaken

/-- The bytes of a new file on a device of one content. -/
theorem Files.newByte_zero (h : Files fm files σ) (hopen : σ.freeMapFile ≠ none)
    (hstore : ∀ x ∉ fm.sectors, σ.store x = Sector.zero) (j : ℕ) : σ.newByte j = 0 := by
  have hblock : σ.nextBlock 0 0 0 (j / 512) = Sector.zero := by
    unfold FsState.nextBlock
    rw [if_neg (Nat.not_lt_zero _)]
    cases hn : σ.freeMap.nth (slots (j / 512 + 1) - 1 - 0) with
    | none => rfl
    | some n => exact hstore _ (h.free_notMem hopen (Bitmap.nth_mem_free hn))
  have hbyte : σ.newByte j = σ.nextBlock 0 0 0 (j / 512) (Fin.ofNat 512 j) := rfl
  rw [hbyte, hblock]
  rfl

end Dirty

/-- A new file of `600` bytes on a device of zeros. -/
theorem unwritten_zero_iff_make : ∃ fm files σ a, Represents fm files σ a ∧
    RunZero [] [.make 600] σ := by
  obtain ⟨-, σ, -, fm, hformatted, hroom, hstore⟩ :=
    @fresh_formatted_keeps 1024 (fun _ => Sector.zero) (by decide) (by decide)
  have hrep := hformatted.files.represents hformatted.memory
  have hopen : σ.freeMapFile ≠ none := by
    rw [hformatted.freeMapFile]
    exact Option.some_ne_none _
  have hsize : (1024 : BlockSector).toNat = 1024 := rfl
  have hslots := slots_le 2
  have hfits : slots 2 ≤ σ.freeMap.free.card := by omega
  have hgaps : GapsZero [.make 600] σ :=
    ⟨fun j _ => hformatted.files.newByte_zero hopen hstore j, fun _ _ _ => trivial⟩
  refine ⟨fm, _, σ, _, hrep, (unwritten_zero_iff hrep (fun _ => rfl) ?_).2 hgaps⟩
  exact ⟨⟨by decide, hfits⟩, fun _ _ _ => trivial⟩

/-- **A new file of one byte on a device of sevens** reads as seven. -/
theorem not_unwritten_zero : ∃ fm files σ a, Represents fm files σ a ∧ FitsAll [.make 1] a ∧
    ¬RunZero [] [.make 1] σ := by
  obtain ⟨-, σ, -, fm, hformatted, hroom, hstore⟩ :=
    @fresh_formatted_keeps 1024 (fun _ _ => 7) (by decide) (by decide)
  have hfiles := hformatted.files
  have hrep := hfiles.represents hformatted.memory
  have hsize : (1024 : BlockSector).toNat = 1024 := rfl
  have hslots := slots_le 1
  have hfits : slots 1 ≤ σ.freeMap.free.card := by omega
  refine ⟨fm, _, σ, _, hrep, ⟨⟨by decide, hfits⟩, fun _ _ _ => trivial⟩, fun hzero => ?_⟩
  obtain ⟨p, σ', hrun, hcases⟩ := hfiles.makeFile_returns (show 1 < 2 ^ 31 by decide)
  rcases hcases with ⟨rfl, σ₁, t', hmade⟩ | ⟨-, hno⟩
  · have hw := hmade.wrote (by decide)
    have hfile := hw.file
    have hle := hfile.len_le
    have hperform : (Call.make 1).perform.run σ = some (.made (some σ.nextPtr), σ') := by
      unfold Call.perform
      rw [run_bind_of_run hrun]
      rfl
    have hinode : σ'.inodes σ.nextPtr = some ⟨t'.sector .root, 1, false, 0⟩ := by
      rw [hmade.opened, ← hw.same.nextPtr]
      exact Function.update_self ..
    have hlength : ((0 : ℕ) : ℤ) < (σ'.store (t'.sector .root)).length := by
      have hroot : σ'.store (t'.sector .root) = t'.table .root := by
        rw [hmade.opened]
        exact hfile.toLaid.store_root
      rw [hroot, hfile.length]
      decide
    have hunwritten : Unwritten [(.make 1, .made (some σ.nextPtr))] σ.nextPtr 0 := fun _ _ _ hmem => by
      cases List.mem_singleton.1 hmem
    -- the byte is what its sector held
    have hbyte : t'.bytes σ' 0 = 7 := by
      have hlive : Slot.data (0 / 512) ∈ t'.live := .inr ⟨0, by omega, rfl⟩
      have hsame : t'.bytes σ' 0 = t'.bytes σ₁ 0 := by
        rw [hmade.opened]
        rfl
      rw [hsame, hw.bytes 0 (by omega), overwrite_nil]
      exact congrFun (hstore _ (hw.claimed.notOwn _ hlive)) _
    obtain ⟨bytes, σ₂, hrun₂, rfl, rfl⟩ := (hzero.2 _ _ hperform) σ.nextPtr _
      ⟨1, List.mem_singleton_self _⟩ hinode 0 hunwritten hlength
    obtain ⟨-, hread⟩ := ((hmade.sideBySide hfiles (by decide)).inodeReadAt_returns hinode
      (Function.update_self ..) 1 0).of_run hrun₂
    have hseven : [(0 : UInt8)] = [7] := hread.trans (congrArg (fun b => [b]) hbyte)
    exact absurd hseven (by decide)
  · exact absurd ⟨hrep.memory, hfits⟩ hno

end Filesys
end CS162

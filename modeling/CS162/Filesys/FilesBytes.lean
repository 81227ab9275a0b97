/-
# Files are growable byte arrays

`projects1-3/src/filesys/inode.c`, lines 563-685.

A `Volume` is what the inode layer is for: byte strings by inode sector, handles
on them, and a number of free sectors.  `Call.Ideal` says what a call does to it:
a read delivers bytes and changes nothing, a write stores its buffer and keeps
every byte that was there before and every other file.  Which bytes fill the gap
of a write past the end is left open.

A device stands for a volume if its files lie side by side (`Represents`), and
calls that fit do to it what they do to the volume (`performAll_ideal`).
-/

import CS162.Filesys.Files

namespace CS162
namespace Filesys

open CS162.Basis

/-! ### Volumes -/

/-- Byte strings by inode sector, the handles on them and the next one handed out,
and the number of free sectors. -/
structure Volume where
  contents : BlockSector → Option (List UInt8)
  opened : InodePtr → Option BlockSector
  next : InodePtr
  free : ℕ

/-- A call on files. -/
inductive Call where
  /-- A new file of `length` bytes. -/
  | make (length : ℕ)
  /-- `inode_read_at`. -/
  | read (p : InodePtr) (size offset : ℕ)
  /-- `inode_write_at`. -/
  | write (p : InodePtr) (buffer : List UInt8) (offset : ℕ)

/-- What a call returns. -/
inductive Outcome where
  | made (p : Option InodePtr)
  | bytes (bytes : List UInt8)
  | wrote (n : ℕ)

/-- The sectors a file of `length` bytes takes. -/
def sectorsOf (length : ℕ) : ℕ := slots ((length + 511) / 512)

/-- The largest length the index tree has entries for. -/
def maxLength : ℕ := (12 + 128 + 128 * 128) * 512

/-- The call is on a file that is there, stays within the index tree's capacity,
and there are free sectors for it. -/
def Call.Fits (a : Volume) : Call → Prop
  | make length => length ≤ maxLength ∧ sectorsOf length ≤ a.free
  | read p _ _ => ∃ x file, a.opened p = some x ∧ a.contents x = some file
  | write p buffer offset => ∃ x file, a.opened p = some x ∧ a.contents x = some file ∧
      offset + buffer.length ≤ maxLength ∧
      sectorsOf (max file.length (offset + buffer.length)) ≤ a.free + sectorsOf file.length

/-- What a call returns and does to a volume. -/
inductive Call.Ideal (a : Volume) : Call → Outcome → Volume → Prop
  | make {length : ℕ} {x : BlockSector} {file : List UInt8} {free : ℕ}
      (hx : a.contents x = none) (hlength : file.length = length)
      (hfree : free + sectorsOf length = a.free) :
      Ideal a (.make length) (.made (some a.next))
        { contents := Function.update a.contents x (some file)
          opened := Function.update a.opened a.next (some x)
          next := a.next + 1
          free := free }
  | read {p : InodePtr} {size offset : ℕ} {x : BlockSector} {file : List UInt8}
      (hp : a.opened p = some x) (hx : a.contents x = some file) :
      Ideal a (.read p size offset) (.bytes ((file.drop offset).take size)) a
  | write {p : InodePtr} {buffer : List UInt8} {offset : ℕ} {x : BlockSector}
      {file file' : List UInt8} {free : ℕ}
      (hp : a.opened p = some x) (hx : a.contents x = some file)
      (hlength : file'.length = max file.length (offset + buffer.length))
      (hbuffer : (file'.drop offset).take buffer.length = buffer)
      (hkeep : ∀ j < file.length, j < offset ∨ offset + buffer.length ≤ j → file'[j]? = file[j]?)
      (hfree : free + sectorsOf file'.length = a.free + sectorsOf file.length) :
      Ideal a (.write p buffer offset) (.wrote buffer.length)
        { a with contents := Function.update a.contents x (some file'), free := free }

/-- Calls one after the other. -/
inductive IdealAll : Volume → List Call → List Outcome → Volume → Prop
  | nil (a : Volume) : IdealAll a [] [] a
  | cons {a a' a'' : Volume} {call : Call} {calls : List Call} {out : Outcome}
      {outs : List Outcome} (head : call.Ideal a out a') (tail : IdealAll a' calls outs a'') :
      IdealAll a (call :: calls) (out :: outs) a''

/-- All the calls fit, whatever the ones before do. -/
def FitsAll : List Call → Volume → Prop
  | [], _ => True
  | call :: calls, a => call.Fits a ∧ ∀ out a', call.Ideal a out a' → FitsAll calls a'

/-! ### The calls on a device -/

/-- One call. -/
def Call.perform : Call → Kernel Outcome
  | make length => do
    let p ← makeFile length
    return .made p
  | read p size offset => do
    let bytes ← inodeReadAt p size offset
    return .bytes bytes
  | write p buffer offset => do
    let n ← inodeWriteAt p buffer offset
    return .wrote n

/-- Calls one after the other. -/
def performAll : List Call → Kernel (List Outcome)
  | [] => return []
  | call :: calls => do
    let out ← call.perform
    let outs ← performAll calls
    return out :: outs

/-- The bytes of a file. -/
def fileBytes (σ : FsState) (f : Tree × ℕ) : List UInt8 := run (f.1.bytes σ) 0 f.2

/-- The device stands for the volume. -/
structure Represents (fm : Tree) (files : FileTable) (σ : FsState) (a : Volume) : Prop where
  sideBySide : Files fm files σ
  memory : σ.Memory
  contents : ∀ x, a.contents x = (files x).map (fileBytes σ)
  opened : ∀ p x, a.opened p = some x →
    ∃ inode, σ.inodes p = some inode ∧ inode.sector = x ∧ inode.denyWriteCnt = 0
  next : σ.nextPtr = a.next
  free : σ.freeMap.free.card = a.free

section Step

variable {fm : Tree} {files : FileTable} {σ σ' : FsState} {a : Volume}

/-- A file of the volume is in the table. -/
theorem Represents.file (h : Represents fm files σ a) {x : BlockSector} {file : List UInt8}
    (hx : a.contents x = some file) :
    ∃ f, files x = some f ∧ file = fileBytes σ f ∧ file.length = f.2 := by
  rw [h.contents] at hx
  obtain ⟨f, hf, rfl⟩ := Option.map_eq_some_iff.1 hx
  exact ⟨f, hf, rfl, length_run _ _ _⟩

/-- The files not written to. -/
theorem Represents.contents_update (h : Represents fm files σ a) {x : BlockSector} {f : Tree × ℕ}
    (hbytes : ∀ x' f', x' ≠ x → files x' = some f' → fileBytes σ' f' = fileBytes σ f')
    (y : BlockSector) : Function.update a.contents x (some (fileBytes σ' f)) y =
      (Function.update files x (some f) y).map (fileBytes σ') := by
  by_cases hy : y = x
  · subst hy
    rw [Function.update_self, Function.update_self]
    rfl
  · rw [Function.update_of_ne hy, Function.update_of_ne hy, h.contents]
    cases hf : files y with
    | none => rfl
    | some f' => exact congrArg some (hbytes y f' hy hf).symm

/-- A write leaves the other files' bytes. -/
theorem Wrote.fileBytes_beside {own : Set BlockSector} {inv : FsState → Prop} {t t' : Tree}
    {len offset : ℕ} {buffer : List UInt8} (hw : Wrote own inv σ t len offset buffer σ' t')
    {f : Tree × ℕ} (hfile : FileAt σ f.1 f.2) (hc : Claimed own σ f.1)
    (hbeside : ∀ s ∈ t.live, ∀ s' ∈ f.1.live, t.sector s ≠ f.1.sector s') :
    fileBytes σ' f = fileBytes σ f :=
  run_congr fun j _ hj => hw.bytes_beside hc hbeside (by have := hfile.len_le; omega)

/-- **Making a file.** -/
theorem Represents.make (h : Represents fm files σ a) {length : ℕ}
    (hfits : (Call.make length).Fits a) :
    Returns (Call.make length).perform σ fun out σ' => ∃ files' a',
      (Call.make length).Ideal a out a' ∧ Represents fm files' σ' a' := by
  have hcapacity : capacity = 16524 := rfl
  have hmax : maxLength = 512 * capacity := rfl
  obtain ⟨hlength, hroom⟩ := hfits
  rw [hmax] at hlength
  unfold Call.perform
  refine (h.sideBySide.makeFile_returns (by omega : length < 2 ^ 31)).seq fun p σ₂ h₂ => ?_
  rw [returns_pure]
  obtain ⟨rfl, σ₁, t', hmade⟩ | ⟨-, hno⟩ := h₂
  swap
  · rw [bytesToSectors_of_lt (by omega)] at hno
    exact absurd ⟨h.memory, by rw [h.free]; exact hroom⟩ hno
  have hwrote := hmade.wrote hlength
  have hfile := hwrote.file
  have hlen : max 0 (length + ([] : List UInt8).length) = length := by simp
  rw [hlen] at hfile
  have hcount := hwrote.count
  rw [hfile.used, hfile.blocks] at hcount
  have hbytes : ∀ f, fileBytes σ₂ f = fileBytes σ₁ f := fun f => by rw [hmade.opened]; rfl
  have hbeside : ∀ x' f', files x' = some f' → fileBytes σ₂ f' = fileBytes σ f' := by
    intro x' f' hf'
    rw [hbytes]
    refine hwrote.fileBytes_beside (h.sideBySide.fileAt hf') (h.sideBySide.claimed hf') fun s hs => ?_
    rw [Tree.live_blank] at hs
    exact hs.elim
  have hmem : σ₂.Memory := by
    rw [hmade.opened]
    exact fun n => hwrote.same.memory h.memory (n + 1)
  have hinodes : σ₂.inodes =
      Function.update σ.inodes σ.nextPtr (some ⟨t'.sector .root, 1, false, 0⟩) := by
    rw [hmade.opened, ← hwrote.same.inodes, ← hwrote.same.nextPtr]
    rfl
  have hnext : σ₂.nextPtr = a.next + 1 := by
    rw [← h.next, hmade.opened, ← hwrote.same.nextPtr]
    rfl
  rw [h.next] at hinodes ⊢
  refine ⟨_, ⟨Function.update a.contents (t'.sector .root) (some (fileBytes σ₂ (t', length))), _, _,
    σ₂.freeMap.free.card⟩, .make ?_ (length_run _ _ _) ?_, hmade.sideBySide h.sideBySide hlength, hmem,
    h.contents_update fun x' f' _ => hbeside x' f', fun p x hp => ?_, hnext, rfl⟩
  · rw [h.contents, hmade.new h.sideBySide]
    rfl
  · have hfree : σ₂.freeMap = σ₁.freeMap := by rw [hmade.opened]; rfl
    rw [hfree, ← h.free]
    exact hcount
  · rw [hinodes]
    by_cases hnew : p = a.next
    · subst hnew
      dsimp only at hp
      rw [Function.update_self] at hp ⊢
      obtain rfl := Option.some.inj hp
      exact ⟨_, rfl, rfl, rfl⟩
    · dsimp only at hp
      rw [Function.update_of_ne hnew] at hp ⊢
      exact h.opened p x hp

/-- **Reading.** -/
theorem Represents.read (h : Represents fm files σ a) {p : InodePtr} {size offset : ℕ}
    (hfits : (Call.read p size offset).Fits a) :
    Returns (Call.read p size offset).perform σ fun out σ' => ∃ files' a',
      (Call.read p size offset).Ideal a out a' ∧ Represents fm files' σ' a' := by
  obtain ⟨x, file, hp, hx⟩ := hfits
  obtain ⟨f, hf, rfl, -⟩ := h.file hx
  obtain ⟨inode, hinode, rfl, -⟩ := h.opened p x hp
  unfold Call.perform
  refine (h.sideBySide.inodeReadAt_returns hinode hf size offset).seq fun bytes σ' h' => ?_
  obtain ⟨rfl, rfl⟩ := h'
  rw [returns_pure, ← take_drop_run]
  exact ⟨files, a, .read hp hx, h⟩

/-- There is room for a write that fits. -/
theorem Represents.enough (h : Represents fm files σ a) {x : BlockSector} {f : Tree × ℕ}
    (hf : files x = some f) {m : ℕ} (hroom : sectorsOf (max f.2 m) ≤ a.free + sectorsOf f.2) :
    Enough σ f.1.blocks ((m + 511) / 512) := by
  have hfile := h.sideBySide.fileAt hf
  refine ⟨h.memory, ?_⟩
  have hdiv : (m + 511) / 512 ≤ (max f.2 m + 511) / 512 := Nat.div_le_div_right (by omega)
  have hcard := Finset.card_le_card (tables_subset hdiv)
  rw [h.free, hfile.blocks]
  unfold sectorsOf slots at *
  omega

/-- **Writing.** -/
theorem Represents.write (h : Represents fm files σ a) {p : InodePtr} {buffer : List UInt8}
    {offset : ℕ} (hfits : (Call.write p buffer offset).Fits a) :
    Returns (Call.write p buffer offset).perform σ fun out σ' => ∃ files' a',
      (Call.write p buffer offset).Ideal a out a' ∧ Represents fm files' σ' a' := by
  have hmax : maxLength = 512 * capacity := rfl
  obtain ⟨x, file, hp, hx, hend, hroom⟩ := hfits
  obtain ⟨f, hf, rfl, hlen⟩ := h.file hx
  obtain ⟨inode, hinode, rfl, hdeny⟩ := h.opened p x hp
  have hfile := h.sideBySide.fileAt hf
  have henough := h.enough hf (hlen ▸ hroom)
  unfold Call.perform
  rcases h.sideBySide.inodeWriteAt_cases hinode hf hdeny (hmax ▸ hend) with hok | ⟨hno, -⟩
  swap
  · exact absurd henough hno
  refine hok.seq fun n σ' h' => ?_
  obtain ⟨rfl, t', hw⟩ := h'
  rw [returns_pure]
  have hlen' : (fileBytes σ' (t', max f.2 (offset + buffer.length))).length =
      max f.2 (offset + buffer.length) := length_run _ _ _
  have hbytes : ∀ j < max f.2 (offset + buffer.length),
      t'.bytes σ' j = overwrite (t'.bytes σ) offset buffer j :=
    fun j hj => hw.bytes j (by have := hw.file.len_le; omega)
  -- the bytes the file had are where they were
  have hold : ∀ j < f.2, t'.bytes σ j = f.1.bytes σ j := by
    intro j hj
    refine congrFun (congrArg σ.store (hw.keep _ (.inr ⟨j / 512, ?_, rfl⟩))) _
    exact hfile.lt_blocks hj
  refine ⟨_, ⟨Function.update a.contents inode.sector
    (some (fileBytes σ' (t', max f.2 (offset + buffer.length)))), _, _, σ'.freeMap.free.card⟩,
    .write hp hx ?_ ?_ (fun j hj hout => ?_) ?_, h.sideBySide.wroteAt hf hw,
    hw.same.memory h.memory, h.contents_update fun x' f' hne hf' => ?_, ?_,
    hw.same.nextPtr.trans h.next, rfl⟩
  · rw [hlen', hlen]
  · rw [fileBytes, take_drop_run, Nat.min_eq_left (by omega)]
    refine (run_congr fun j _ hj => hbytes j (by omega)).trans (run_overwrite _ _ _)
  · rw [hlen] at hj
    have hj' : j < max f.2 (offset + buffer.length) := by omega
    rw [List.getElem?_eq_getElem (by rw [hlen']; exact hj'),
      List.getElem?_eq_getElem (by rw [hlen]; exact hj)]
    simp only [fileBytes, getElem_run, Nat.zero_add]
    rw [hbytes j hj', overwrite_outside _ hout, hold j hj]
  · have hcount := hw.count
    rw [hw.file.used, hw.file.blocks, hfile.used, hfile.blocks] at hcount
    rw [hlen', hlen, ← h.free]
    exact hcount
  · exact hw.fileBytes_beside (h.sideBySide.fileAt hf') (h.sideBySide.claimed hf')
      (h.sideBySide.disjoint hf hf' hne.symm)
  · rw [hw.same.inodes]
    exact h.opened

end Step

/-- **Files are growable byte arrays.**  On a device with memory, any calls that fit
return what they return on the volume the device stands for, and the device
stands for the volume they leave.  By induction on the calls. -/
theorem performAll_ideal {fm : Tree} (calls : List Call) :
    ∀ {files : FileTable} {σ : FsState} {a : Volume}, Represents fm files σ a → FitsAll calls a →
      Returns (performAll calls) σ fun outs σ' => ∃ files' a', IdealAll a calls outs a' ∧
        Represents fm files' σ' a' := by
  induction calls with
  | nil =>
    intro files σ a h _
    rw [performAll, returns_pure]
    exact ⟨files, a, .nil a, h⟩
  | cons call calls ih =>
    intro files σ a h hfits
    have hcall : Returns call.perform σ fun out σ' => ∃ files' a', call.Ideal a out a' ∧
        Represents fm files' σ' a' := by
      cases call with
      | make length => exact h.make hfits.1
      | read p size offset => exact h.read hfits.1
      | write p buffer offset => exact h.write hfits.1
    rw [performAll]
    refine hcall.seq fun out σ₁ h₁ => ?_
    obtain ⟨files₁, a₁, hideal, h₁⟩ := h₁
    refine (ih h₁ (hfits.2 out a₁ hideal)).seq fun outs σ₂ h₂ => ?_
    obtain ⟨files₂, a₂, hall, h₂⟩ := h₂
    rw [returns_pure]
    exact ⟨files₂, a₂, .cons hideal hall, h₂⟩

/-- A formatted device stands for a volume without files. -/
theorem Files.represents {fm : Tree} {σ : FsState} (h : Files fm (fun _ => none) σ)
    (hmem : σ.Memory) : Represents fm (fun _ => none) σ
      ⟨fun _ => none, fun _ => none, σ.nextPtr, σ.freeMap.free.card⟩ :=
  ⟨h, hmem, fun _ => rfl, fun _ _ hp => (Option.some_ne_none _ hp.symm).elim, rfl, rfl⟩

/-- A new file on a formatted device of `1024` sectors, a byte written past its
end, and that byte read with the one after it. -/
theorem performAll_ideal_three :
    ∃ fm files σ a, Represents fm files σ a ∧ a.next = 1 ∧
      Returns (performAll [.make 0, .write 1 [7] 600, .read 1 2 600]) σ fun outs σ' =>
        ∃ files' a', IdealAll a [.make 0, .write 1 [7] 600, .read 1 2 600] outs a' ∧
          Represents fm files' σ' a' := by
  obtain ⟨-, σ, -, fm, hformatted, hroom⟩ :=
    @fresh_formatted 1024 (fun _ => Sector.zero) (by decide) (by decide)
  have hrep := hformatted.files.represents hformatted.memory
  have hroom' : 890 ≤ σ.freeMap.free.card := by
    have hsize : (1024 : BlockSector).toNat = 1024 := rfl
    omega
  have hmax : maxLength = 8460288 := rfl
  have hslots := slots_le 0
  have hslots' := slots_le 2
  generalize σ.freeMap.free.card = free at *
  rw [hformatted.nextPtr] at hrep
  refine ⟨fm, _, σ, _, hrep, rfl, performAll_ideal _ hrep ⟨⟨Nat.zero_le _, ?_⟩, fun out a₁ h₁ => ?_⟩⟩
  · show slots 0 ≤ free
    omega
  cases h₁ with
  | make hx hlength hfree =>
    rename_i x file free₁
    have hcontents : Function.update (fun _ => none) x (some file) x = some file :=
      Function.update_self ..
    refine ⟨⟨x, file, rfl, hcontents, by decide, ?_⟩, fun out a₂ h₂ => ?_⟩
    · rw [hlength]
      show slots 2 ≤ free₁ + slots 0
      have hfree' : free₁ + slots 0 = free := hfree
      omega
    · cases h₂ with
      | write hp hx' hlength' hbuffer hkeep hfree' =>
        rename_i x' file₁ file₂ free₂
        refine ⟨⟨x', file₂, hp, ?_⟩, fun _ _ _ => trivial⟩
        dsimp only
        rw [Function.update_self]

end Filesys
end CS162

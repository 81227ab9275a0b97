/-
# Writing page by page

`projects1-3/src/userprog/syscall.c`, lines 376-421: `sys_write`, with `file_write`
(`projects1-3/src/filesys/file.c`, lines 77-81) as a parameter.

A file, with its position and all that its room depends on, is a sink: `file_write` stores bytes
at the position until there is no room for one.  The chunks that are passed to it are the history.
The call leaves the file as one `file_write` of the whole buffer does and returns the same
(`sysWrite_writesOnce`), since what it passes down are the parts of the buffer up to the ends of
the pages, and it stops at the first that is not all stored.
-/

import CS162.Basis.Sinks
import CS162.Userprog.FileCalls

namespace CS162
namespace Userprog

open CS162.Basis CS162.Filesys

/-- What a handle stands for. -/
inductive Target where
  | console
  | directory
  | file
  deriving DecidableEq

/-- A file, what is on the console, and as history the addresses and lengths of the chunks that
`file_write` was called for. -/
structure Sending (F : Type) where
  file : F
  console : List UInt8
  chunks : List (UInt32 × ℕ)

section Calls

variable {F : Type} (fileWrite : List UInt8 → F → ℤ × F) (user : UInt32 → UInt8)
variable (mapped : UInt32 → Bool) (target : Target)

/-- `putbuf` or `file_write` of a part of the buffer. -/
def sendChunk (usrc : UInt32) (amount : ℕ) : Call (Sending F) ℤ := do
  let S ← get
  if target = .console then
    set { S with console := S.console ++ getBytes user usrc amount }
    return amount
  else
    let written := fileWrite (getBytes user usrc amount) S.file
    set { S with file := written.2, chunks := S.chunks ++ [(usrc, amount)] }
    return written.1

/-- The loop of `sys_write`. -/
def writeLoop : ℕ → UInt32 → UInt32 → ℤ → Call (Sending F) ℤ
  | 0, _, _, _ => callOut halt
  | turns + 1, usrc, size, bytesWritten =>
    if size = 0 then return bytesWritten else do
    let writeAmt := pageAmount usrc size.toNat
    -- `verify_user`
    if (usrc < physBase && mapped usrc) = false then stop .exit else
    let retval ← sendChunk fileWrite user target usrc writeAmt
    if retval < 0 then
      return (if bytesWritten = 0 then -1 else bytesWritten)
    else
    let bytesWritten := wrap32 (bytesWritten + retval)
    if retval ≠ writeAmt then return bytesWritten else
    writeLoop turns (usrc + UInt32.ofNat retval.toNat) (size - UInt32.ofNat retval.toNat)
      bytesWritten

/-- `sys_write`, with `turns` for the loop. -/
def sysWriteTo (turns : ℕ) (usrc size : UInt32) : Call (Sending F) ℤ :=
  if target = .directory then return -1 else
  writeLoop fileWrite user mapped target turns usrc size 0

end Calls

/-- The buffer is mapped user memory. -/
def MappedBuffer (mapped : UInt32 → Bool) (usrc size : UInt32) : Prop :=
  ∀ i < size.toNat, usrc.toNat + i < physBase.toNat ∧ mapped (usrc + UInt32.ofNat i) = true

/-- The call ends, and does what one `file_write` of the buffer does; no chunk that it passes down
crosses the end of a page. -/
def WritesOnce {F : Type} (fileWrite : List UInt8 → F → ℤ × F) (user : UInt32 → UInt8)
    (mapped : UInt32 → Bool) (turns : ℕ) (usrc size : UInt32) (S : Sending F) : Prop :=
  Ends (sysWriteTo fileWrite user mapped .file turns usrc size) S fun r S' =>
    r = .ok (fileWrite (getBytes user usrc size.toNat) S.file).1 ∧
    S'.file = (fileWrite (getBytes user usrc size.toNat) S.file).2 ∧
    ∃ chunks, S'.chunks = S.chunks ++ chunks ∧ ∀ c ∈ chunks, (pgOfs c.1).toNat + c.2 ≤ 4096

/-- `file_write` stores bytes until there is no room. -/
def StoresBytes {F : Type} (put : F → UInt8 → F) (full : F → Bool)
    (fileWrite : List UInt8 → F → ℤ × F) : Prop :=
  (∀ bytes f, 0 ≤ (fileWrite bytes f).1) ∧
    StoresPrefix put full fun bytes f => ((fileWrite bytes f).1.toNat, (fileWrite bytes f).2)

section Runs

variable {F : Type} {put : F → UInt8 → F} {full : F → Bool} {fileWrite : List UInt8 → F → ℤ × F}
variable {user : UInt32 → UInt8} {mapped : UInt32 → Bool} {usrc size : UInt32} {S : Sending F}
variable {turns k n : ℕ}

theorem StoresBytes.eq_fill (h : StoresBytes put full fileWrite) (bytes : List UInt8) (f : F) :
    fileWrite bytes f = (((fill put full bytes f).1 : ℤ), (fill put full bytes f).2) := by
  have hfill : (((fileWrite bytes f).1.toNat, (fileWrite bytes f).2) : ℕ × F) =
      fill put full bytes f := h.2.eq_fill
  rw [← hfill]
  exact Prod.ext (Int.toNat_of_nonneg (h.1 bytes f)).symm rfl

theorem pageAmount_le (usrc : UInt32) (n : ℕ) :
    pageAmount usrc n ≤ n ∧ (pgOfs usrc).toNat + pageAmount usrc n ≤ 4096 := by
  unfold pageAmount
  rw [pgOfs_toNat]
  omega

theorem pageAmount_pos (usrc : UInt32) (hn : n ≠ 0) : 0 < pageAmount usrc n := by
  unfold pageAmount
  rw [pgOfs_toNat]
  omega

/-- A buffer is its first bytes and the rest. -/
theorem getBytes_append (hk : k ≤ n) :
    getBytes user usrc n = getBytes user usrc k ++ getBytes user (usrc + UInt32.ofNat k) (n - k) := by
  obtain ⟨m, rfl⟩ := Nat.exists_eq_add_of_le hk
  unfold getBytes
  rw [List.range_add, List.map_append, List.map_map, Nat.add_sub_cancel_left]
  refine congrArg _ (List.map_congr_left fun i _ => ?_)
  show user _ = user _
  rw [UInt32.add_assoc, UInt32.ofNat_add]

@[simp] theorem length_getBytes : (getBytes user usrc n).length = n := by
  unfold getBytes
  rw [List.length_map, List.length_range]

theorem toNat_sub_ofNat (hk : k ≤ size.toNat) : (size - UInt32.ofNat k).toNat = size.toNat - k := by
  have hlt := size.toNat_lt
  have hk32 : (UInt32.ofNat k).toNat = k := by
    rw [UInt32.toNat_ofNat']
    omega
  rw [UInt32.toNat_sub_of_le _ _ (UInt32.le_iff_toNat_le.2 (by omega)), hk32]

/-- The rest of a mapped buffer is mapped. -/
theorem MappedBuffer.rest (h : MappedBuffer mapped usrc size) (hk : k ≤ size.toNat) :
    MappedBuffer mapped (usrc + UInt32.ofNat k) (size - UInt32.ofNat k) := by
  intro i hi
  rw [toNat_sub_ofNat hk] at hi
  obtain ⟨hbase, hmapped⟩ := h (k + i) (by omega)
  have hsize := size.toNat_lt
  have hphys : physBase.toNat = 3221225472 := rfl
  have haddress : (usrc + UInt32.ofNat k).toNat = usrc.toNat + k := by
    rw [UInt32.toNat_add, UInt32.toNat_ofNat']
    omega
  refine ⟨by omega, ?_⟩
  rwa [UInt32.add_assoc, ← UInt32.ofNat_add]

/-- A chunk goes to the file. -/
theorem sendChunk_seq {α : Type} {amount : ℕ} {f : ℤ → Call (Sending F) α}
    {Q : Except Stop α → Sending F → Prop} (hw : StoresBytes put full fileWrite)
    (h : Ends (f ((fill put full (getBytes user usrc amount) S.file).1 : ℤ))
      { S with
        file := (fill put full (getBytes user usrc amount) S.file).2
        chunks := S.chunks ++ [(usrc, amount)] } Q) :
    Ends (sendChunk fileWrite user .file usrc amount >>= f) S Q := by
  have hwrite := hw.eq_fill (getBytes user usrc amount) S.file
  have hends : Ends (sendChunk fileWrite user .file usrc amount) S fun r S' =>
      r = .ok ((fill put full (getBytes user usrc amount) S.file).1 : ℤ) ∧ S' = { S with
        file := (fill put full (getBytes user usrc amount) S.file).2
        chunks := S.chunks ++ [(usrc, amount)] } := by
    unfold sendChunk
    rw [ends_get_bind, if_neg (by decide), ends_set_bind, ends_pure, hwrite]
    exact ⟨rfl, rfl⟩
  refine hends.seq (fun k S' hk => ?_) fun e S' he => ?_
  · obtain ⟨hr, rfl⟩ := hk
    rw [Except.ok.inj hr]
    exact h
  · cases he.1

/-- **The loop of `sys_write`**, with `b` bytes written before. -/
theorem writeLoop_ends (user : UInt32 → UInt8) (S : Sending F)
    (hw : StoresBytes put full fileWrite) (h : MappedBuffer mapped usrc size) (hturns : size.toNat < turns) (b : ℕ) (hsum : b + size.toNat < 2 ^ 31) :
    Ends (writeLoop fileWrite user mapped .file turns usrc size b) S fun r S' =>
      r = .ok ((b + (fill put full (getBytes user usrc size.toNat) S.file).1 : ℕ) : ℤ) ∧
      S'.file = (fill put full (getBytes user usrc size.toNat) S.file).2 ∧
      ∃ chunks, S'.chunks = S.chunks ++ chunks ∧
        ∀ c ∈ chunks, (pgOfs c.1).toNat + c.2 ≤ 4096 := by
  induction turns generalizing usrc size b S with
  | zero => exact absurd hturns (Nat.not_lt_zero _)
  | succ turns ih =>
    unfold writeLoop
    by_cases hsize : size = 0
    · rw [if_pos hsize, ends_pure, hsize]
      exact ⟨rfl, rfl, [], (List.append_nil _).symm, nofun⟩
    have hpos : size.toNat ≠ 0 := fun h0 => hsize (UInt32.toNat_inj.1 h0)
    obtain ⟨hle, hpage⟩ := pageAmount_le usrc size.toNat
    have hamount := pageAmount_pos usrc hpos
    generalize pageAmount usrc size.toNat = amount at hle hpage hamount ⊢
    have hverify : ¬(usrc < physBase && mapped usrc) = false := by
      obtain ⟨hbase, hmapped⟩ := h 0 (by omega)
      have hzero : usrc + UInt32.ofNat 0 = usrc := UInt32.add_zero usrc
      rw [hzero] at hmapped
      rw [hmapped, decide_eq_true (UInt32.lt_iff_toNat_lt.2 (by omega))]
      exact Bool.noConfusion
    rw [if_neg hsize, if_neg hverify]
    refine sendChunk_seq hw ?_
    have hstored := (fill_storesPrefix put full).le (getBytes user usrc amount) S.file
    have happend := fill_append put full (getBytes user usrc amount)
      (getBytes user (usrc + UInt32.ofNat amount) (size.toNat - amount)) S.file
    rw [← getBytes_append hle] at happend
    rw [length_getBytes] at hstored happend
    generalize fill put full (getBytes user usrc amount) S.file = stored at hstored happend ⊢
    have hwrap : wrap32 ((b : ℤ) + (stored.1 : ℤ)) = ((b + stored.1 : ℕ) : ℤ) := by
      rw [← Int.natCast_add]
      exact wrap32_of_lt (by omega)
    have hchunk : ∀ c ∈ [(usrc, amount)], (pgOfs c.1).toNat + c.2 ≤ 4096 := fun c hc => by
      rw [List.mem_singleton.1 hc]
      exact hpage
    rw [if_neg (by omega), hwrap, happend]
    by_cases hall : stored.1 = amount
    · -- all of the chunk is stored
      rw [if_neg (by simp [hall]), if_pos hall, hall, Int.toNat_natCast]
      have hrest := h.rest hle
      have hnext := toNat_sub_ofNat hle
      refine (ih _ hrest (by omega) (b + amount) (by omega)).mono fun r S' hr => ?_
      rw [hnext] at hr
      obtain ⟨hr, hfile, chunks, hchunks, hpages⟩ := hr
      refine ⟨?_, hfile, [(usrc, amount)] ++ chunks, ?_, fun c hc => ?_⟩
      · rw [hr, Nat.add_assoc]
      · rw [hchunks, List.append_assoc]
      · rcases List.mem_append.1 hc with hc | hc
        · exact hchunk c hc
        · exact hpages c hc
    · -- the write is short
      rw [if_pos (by simpa using hall), if_neg hall, ends_pure]
      exact ⟨rfl, rfl, [(usrc, amount)], rfl, hchunk⟩

/-- **`sys_write`** to a file does what one `file_write` of the whole buffer does. -/
theorem sysWrite_writesOnce (hw : StoresBytes put full fileWrite)
    (h : MappedBuffer mapped usrc size) (hsize : size.toNat < 2 ^ 31)
    (hturns : size.toNat < turns) :
    WritesOnce fileWrite user mapped turns usrc size S := by
  unfold WritesOnce sysWriteTo
  rw [if_neg (by decide), hw.eq_fill]
  have hloop := writeLoop_ends user S hw h hturns 0 (by omega)
  simpa using hloop

end Runs

/-- A file that has room for bytes up to `room`. -/
structure RoomFile where
  content : List UInt8
  pos : ℕ
  room : ℕ

def RoomFile.put (f : RoomFile) (x : UInt8) : RoomFile :=
  { f with content := f.content.take f.pos ++ x :: f.content.drop (f.pos + 1), pos := f.pos + 1 }

def RoomFile.full (f : RoomFile) : Bool := f.room ≤ f.pos

/-- `file_write` of such a file. -/
def roomWrite (bytes : List UInt8) (f : RoomFile) : ℤ × RoomFile :=
  (((fill RoomFile.put RoomFile.full bytes f).1 : ℤ), (fill RoomFile.put RoomFile.full bytes f).2)

theorem roomWrite_storesBytes : StoresBytes RoomFile.put RoomFile.full roomWrite :=
  ⟨fun _ _ => Int.natCast_nonneg _, fill_storesPrefix RoomFile.put RoomFile.full⟩

/-- Five bytes from two before the end of a page, for four of which there is room. -/
theorem sysWrite_writesOnce_five :
    WritesOnce roomWrite UInt32.toUInt8 (fun _ => true) 6 0x8048ffe 5 ⟨⟨[], 0, 4⟩, [], []⟩ := by
  have haddress : (0x8048ffe : UInt32).toNat = 134516734 := rfl
  have hsize : (5 : UInt32).toNat = 5 := rfl
  have hbase : physBase.toNat = 3221225472 := rfl
  refine sysWrite_writesOnce roomWrite_storesBytes (fun i hi => ⟨?_, rfl⟩) (by decide) (by decide)
  omega

end Userprog
end CS162

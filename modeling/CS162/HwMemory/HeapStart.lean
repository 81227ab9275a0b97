/-
# Where the heap begins

`hw-memory/pintos/src/userprog/process.c`, lines 187-284 (`load`).  `validate_segment` and
`load_segment` are those of the projects.

In the case `PT_LOAD` the pointers to the heap are set from `zero_bytes` and `read_bytes` before
these have a value.  `locals` answers with what the stack holds for them each time the block is
entered.  The start is a page above the last segment only by accident; it is the same for all
executables with the same headers if none of these is `PT_LOAD` (`load_heapRight_iff`).
-/

import CS162.Basis.Bytes
import CS162.Userprog.Segments

namespace CS162
namespace HwMemory
namespace Image

open CS162.Basis CS162.Userprog

/-- A thread while `load` runs. -/
structure Process where
  loader : Loader
  /-- `thread_heap_start` and `thread_heap_end`. -/
  heapStart : UInt32
  heapEnd : UInt32
  /-- The unset `read_bytes` and `zero_bytes`, for the entries of the block to come. -/
  locals : ℕ → UInt32 × UInt32

abbrev OnProcess := Prog Process

def onLoader {α : Type} (x : Load α) : OnProcess α := fun P =>
  (x.run P.loader).map fun r => (r.1, { P with loader := r.2 })

/-! ### Headers -/

/-- The field of `k` bytes at an offset. -/
def fieldAt (bytes : List UInt8) (ofs k : ℕ) : ℕ := ofBE ((bytes.drop ofs).take k).reverse

/-- `struct Elf32_Phdr`, 32 bytes. -/
def phdrOf (bytes : List UInt8) : Elf32Phdr where
  pType := UInt32.ofNat (fieldAt bytes 0 4)
  pOffset := UInt32.ofNat (fieldAt bytes 4 4)
  pVaddr := UInt32.ofNat (fieldAt bytes 8 4)
  pFilesz := UInt32.ofNat (fieldAt bytes 16 4)
  pMemsz := UInt32.ofNat (fieldAt bytes 20 4)
  pFlags := UInt32.ofNat (fieldAt bytes 24 4)

/-- `struct Elf32_Ehdr`, 52 bytes, as far as `load` reads it. -/
structure Elf32Ehdr where
  eIdent : List UInt8
  eType : ℕ
  eMachine : ℕ
  eVersion : ℕ
  eEntry : UInt32
  ePhoff : UInt32
  ePhentsize : ℕ
  ePhnum : ℕ

def ehdrOf (bytes : List UInt8) : Elf32Ehdr where
  eIdent := bytes.take 16
  eType := fieldAt bytes 16 2
  eMachine := fieldAt bytes 18 2
  eVersion := fieldAt bytes 20 4
  eEntry := UInt32.ofNat (fieldAt bytes 24 4)
  ePhoff := UInt32.ofNat (fieldAt bytes 28 4)
  ePhentsize := fieldAt bytes 42 2
  ePhnum := fieldAt bytes 44 2

/-- An executable header that `load` goes on with. -/
def Elf32Ehdr.Verified (ehdr : Elf32Ehdr) : Prop :=
  ehdr.eIdent.take 7 = [0x7f, 0x45, 0x4c, 0x46, 1, 1, 1] ∧ ehdr.eType = 2 ∧ ehdr.eMachine = 3 ∧
    ehdr.eVersion = 1 ∧ ehdr.ePhentsize = 32 ∧ ehdr.ePhnum ≤ 1024

instance (ehdr : Elf32Ehdr) : Decidable ehdr.Verified := inferInstanceAs (Decidable (_ ∧ _))

/-! ### `load` -/

/-- The pointers to the heap, before `zero_bytes` and `read_bytes` are set. -/
def setHeap (memPage : UInt32) : OnProcess Unit := do
  let P ← get
  let start := (P.locals 0).2 + (P.locals 0).1 + memPage
  set { P with heapEnd := start, heapStart := start, locals := fun n => P.locals (n + 1) }

/-- The case `PT_LOAD`. -/
def loadValid (fuel : ℕ) (phdr : Elf32Phdr) : OnProcess Bool := do
  let P ← get
  if validateSegment phdr P.loader.file.bytes.length then
    setHeap phdr.memPage
    onLoader (loadSegment fuel (toOff phdr.filePage) phdr.memPage phdr.readBytes phdr.zeroBytes
      (phdr.pFlags &&& 2 != 0))
  else return false

/-- The `switch` on one program header: whether `load` goes on to the next. -/
def loadHeader (fuel : ℕ) (phdr : Elf32Phdr) : OnProcess Bool :=
  -- `PT_DYNAMIC`, `PT_INTERP` and `PT_SHLIB`
  if phdr.pType = 2 ∨ phdr.pType = 3 ∨ phdr.pType = 5 then pure false
  else if phdr.pType = 1 then loadValid fuel phdr
  else pure true

/-- The loop over the program headers, `n` more of them. -/
def loadHeaders (fuel : ℕ) : ℕ → ℤ → OnProcess Bool
  | 0, _ => return true
  | n + 1, fileOfs => do
    let P ← get
    if fileOfs < 0 ∨ P.loader.file.bytes.length < fileOfs then return false
    else
      onLoader (fileSeek fileOfs)
      let phdr ← onLoader (fileRead 32)
      if phdr.length ≠ 32 then return false
      else
        let goOn ← loadHeader fuel (phdrOf phdr)
        if goOn then loadHeaders fuel n (fileOfs + 32) else return false

/-- `setup_stack`. -/
def setupStack : OnProcess Bool := do
  let kpage ← onLoader ask
  if kpage then onLoader (installPage (physBase - pgsize) ⟨List.replicate 4096 0, true⟩)
  else return false

/-- `load`: `*eip` and `*esp` if it succeeds.  The page directory and the open file need memory. -/
def load (fuel : ℕ) : OnProcess (Option (UInt32 × UInt32)) := do
  let pagedir ← onLoader ask
  if pagedir = false then return none
  else
    let file ← onLoader ask
    if file = false then return none
    else
      let bytes ← onLoader (fileRead 52)
      if bytes.length ≠ 52 ∨ ¬(ehdrOf bytes).Verified then return none
      else
        let headers ← loadHeaders fuel (ehdrOf bytes).ePhnum (toOff (ehdrOf bytes).ePhoff)
        if headers = false then return none
        else
          let stack ← setupStack
          if stack then return some ((ehdrOf bytes).eEntry, physBase - 20) else return none

/-! ### The property -/

/-- `n` program headers from an offset on. -/
def headersAt (bytes : List UInt8) : ℕ → ℕ → List Elf32Phdr
  | 0, _ => []
  | n + 1, ofs => phdrOf ((bytes.drop ofs).take 32) :: headersAt bytes n (ofs + 32)

/-- The program headers of a file. -/
def headersOf (bytes : List UInt8) : List Elf32Phdr :=
  headersAt bytes (ehdrOf (bytes.take 52)).ePhnum (ehdrOf (bytes.take 52)).ePhoff.toNat

/-- `PT_LOAD`. -/
def Loadable (phdr : Elf32Phdr) : Prop := phdr.pType = 1

/-- The end of the segment's last page. -/
def lastPageEnd (phdr : Elf32Phdr) : ℕ := (phdr.pVaddr.toNat + phdr.pMemsz.toNat + 4095) / 4096 * 4096

/-- Before `load`: the file is at its start, and there is no heap. -/
structure Process.Fresh (P : Process) : Prop where
  pos : P.loader.pos = 0
  heapStart : P.heapStart = 0
  heapEnd : P.heapEnd = 0

/-- `load` accepts an executable with these headers. -/
def Accepts (fuel : ℕ) (headers : List Elf32Phdr) (P P' : Process) : Prop :=
  P.Fresh ∧ headersOf P.loader.file.bytes = headers ∧
    ∃ entry, (load fuel).run P = some (some entry, P')

/-- **The heap begins after the image**, at a page that depends on the headers alone. -/
def HeapRight (fuel : ℕ) (headers : List Elf32Phdr) : Prop :=
  ∃ start : UInt32, pgOfs start = 0 ∧ (∀ s ∈ headers, Loadable s → lastPageEnd s ≤ start.toNat) ∧
    ∀ P P', Accepts fuel headers P P' → P'.heapStart = start ∧ P'.heapEnd = start

/-! ### The file stays -/

section File

variable {α : Type}

/-- The program leaves the file. -/
def KeepsFile (x : Load α) : Prop := Preserves (fun L L' => L'.file = L.file) x

theorem keepsFile_pure {a : α} : KeepsFile (pure a) := fun _ => ensures_pure rfl

theorem KeepsFile.bind {β : Type} {x : Load α} {f : α → Load β} (h : KeepsFile x)
    (hf : ∀ a, KeepsFile (f a)) : KeepsFile (x >>= f) :=
  Preserves.bind (fun h h' => h'.trans h) h hf

theorem keepsFile_ask : KeepsFile ask := by
  intro L a L' hrun
  cases hrun
  rfl

theorem keepsFile_fileSeek {pos : ℤ} : KeepsFile (fileSeek pos) := by
  unfold fileSeek
  split_ifs
  · exact preserves_halt
  · exact preserves_modify fun _ => rfl

theorem keepsFile_fileRead {size : ℕ} : KeepsFile (fileRead size) := by
  intro L a L' hrun
  cases hrun
  rfl

theorem keepsFile_installPage {upage : UInt32} {page : UserPage} :
    KeepsFile (installPage upage page) := by
  unfold installPage
  refine preserves_get_bind fun L => ?_
  split_ifs
  · exact ensures_halt
  · exact ensures_pure rfl
  · exact ensures_halt
  · have hrest : KeepsFile (do
        let granted ← ask
        if granted then
          modify fun L => { L with pages := Function.update L.pages (pgNo upage) (some page) }
          return true
        else return false) := by
      refine keepsFile_ask.bind fun granted => ?_
      split_ifs
      · exact KeepsFile.bind (preserves_modify fun _ => rfl) fun _ => keepsFile_pure
      · exact keepsFile_pure
    exact hrest L

theorem keepsFile_loadPage {writable : Bool} {upage pageReadBytes pageZeroBytes : UInt32} :
    KeepsFile (loadPage writable upage pageReadBytes pageZeroBytes) := by
  unfold loadPage
  refine keepsFile_ask.bind fun kpage => ?_
  split_ifs
  · exact keepsFile_pure
  · refine keepsFile_fileRead.bind fun bytes => ?_
    split_ifs
    · exact keepsFile_pure
    · exact keepsFile_installPage

theorem keepsFile_loadPages {writable : Bool} {fuel : ℕ} {upage readBytes zeroBytes : UInt32} :
    KeepsFile (loadPages writable fuel upage readBytes zeroBytes) := by
  induction fuel generalizing upage readBytes zeroBytes with
  | zero => exact preserves_halt
  | succ fuel ih =>
    unfold loadPages
    by_cases hmore : 0 < readBytes ∨ 0 < zeroBytes
    · rw [if_pos hmore]
      refine KeepsFile.bind (preserves_modify fun _ => rfl) fun _ => ?_
      refine keepsFile_loadPage.bind fun loaded => ?_
      cases loaded with
      | false => exact keepsFile_pure
      | true => exact ih
    · rw [if_neg hmore]
      exact keepsFile_pure

theorem keepsFile_loadSegment {fuel : ℕ} {ofs : ℤ} {upage readBytes zeroBytes : UInt32}
    {writable : Bool} : KeepsFile (loadSegment fuel ofs upage readBytes zeroBytes writable) := by
  unfold loadSegment
  split_ifs
  · exact preserves_halt
  · exact preserves_halt
  · exact preserves_halt
  · exact keepsFile_fileSeek.bind fun _ => keepsFile_loadPages

end File

/-! ### The locals -/

section Blind

variable {α β : Type} {P P' Q : Process} {fuel : ℕ}

/-- What the program does to the file, the pages and memory depends on these alone. -/
def Blind (x : OnProcess α) : Prop :=
  ∀ P Q : Process, Q.loader = P.loader → ∀ r P', x.run P = some (r, P') →
    ∃ Q', x.run Q = some (r, Q') ∧ Q'.loader = P'.loader

theorem blind_pure {a : α} : Blind (pure a) := by
  intro P Q hPQ r P' hrun
  cases hrun
  exact ⟨Q, rfl, hPQ⟩

theorem Blind.bind {x : OnProcess α} {f : α → OnProcess β} (h : Blind x) (hf : ∀ a, Blind (f a)) :
    Blind (x >>= f) := by
  intro P Q hPQ r P' hrun
  obtain ⟨a, P₁, hx, hrun⟩ := run_bind_cases hrun
  obtain ⟨Q₁, hx', hPQ₁⟩ := h P Q hPQ a P₁ hx
  obtain ⟨Q', hrun', hPQ'⟩ := hf a P₁ Q₁ hPQ₁ r P' hrun
  exact ⟨Q', (run_bind_of_run hx').trans hrun', hPQ'⟩

theorem blind_onLoader {x : Load α} : Blind (onLoader x) := by
  intro P Q hPQ r P' hrun
  change (x.run P.loader).map _ = _ at hrun
  obtain ⟨⟨a, L⟩, hx, hres⟩ := Option.map_eq_some_iff.1 hrun
  cases hres
  refine ⟨{ Q with loader := L }, ?_, rfl⟩
  change (x.run Q.loader).map _ = _
  rw [hPQ, hx]
  rfl

theorem blind_setHeap {memPage : UInt32} : Blind (setHeap memPage) := by
  intro P Q hPQ r P' hrun
  cases hrun
  exact ⟨_, rfl, hPQ⟩

/-- A choice by the state that depends on the loader alone. -/
theorem blind_get {f : Process → OnProcess β} (hf : ∀ P Q : Process, Q.loader = P.loader → f Q = f P)
    (h : ∀ P, Blind (f P)) : Blind (get >>= f) := by
  intro P Q hPQ r P' hrun
  obtain ⟨Q', hrun', hPQ'⟩ := h P P Q hPQ r P' hrun
  refine ⟨Q', ?_, hPQ'⟩
  change (f Q).run Q = _
  rwa [hf P Q hPQ]

theorem blind_loadHeader {phdr : Elf32Phdr} : Blind (loadHeader fuel phdr) := by
  unfold loadHeader
  split_ifs
  · exact blind_pure
  · unfold loadValid
    refine blind_get (fun P Q hPQ => by rw [hPQ]) fun P => ?_
    split_ifs
    · exact blind_setHeap.bind fun _ => blind_onLoader
    · exact blind_pure
  · exact blind_pure

theorem blind_loadHeaders {n : ℕ} {fileOfs : ℤ} : Blind (loadHeaders fuel n fileOfs) := by
  induction n generalizing fileOfs with
  | zero => exact blind_pure
  | succ n ih =>
    unfold loadHeaders
    refine blind_get (fun P Q hPQ => by rw [hPQ]) fun P => ?_
    split_ifs
    · exact blind_pure
    · refine blind_onLoader.bind fun _ => blind_onLoader.bind fun phdr => ?_
      split_ifs
      · exact blind_pure
      · refine blind_loadHeader.bind fun goOn => ?_
        split_ifs
        · exact ih
        · exact blind_pure

/-- **Whether `load` succeeds does not depend on the locals.** -/
theorem blind_load : Blind (load fuel) := by
  unfold load
  refine blind_onLoader.bind fun pagedir => ?_
  split_ifs
  · exact blind_pure
  · refine blind_onLoader.bind fun file => ?_
    split_ifs
    · exact blind_pure
    · refine blind_onLoader.bind fun bytes => ?_
      split_ifs
      · exact blind_pure
      · refine blind_loadHeaders.bind fun headers => ?_
        split_ifs
        · exact blind_pure
        · have hstack : Blind setupStack := by
            unfold setupStack
            refine blind_onLoader.bind fun kpage => ?_
            split_ifs
            · exact blind_onLoader
            · exact blind_pure
          refine hstack.bind fun stack => ?_
          split_ifs
          · exact blind_pure
          · exact blind_pure

end Blind

/-! ### The pointers to the heap -/

section Heap

variable {P P' : Process} {fuel : ℕ} {locals : ℕ → UInt32 × UInt32} {h : UInt32} {headers : List Elf32Phdr}

/-- What a loop over the headers leaves in a pointer to the heap. -/
def heapAfter : (ℕ → UInt32 × UInt32) → UInt32 → List Elf32Phdr → UInt32
  | _, h, [] => h
  | locals, h, phdr :: rest =>
    if phdr.pType = 1 then
      heapAfter (fun n => locals (n + 1)) ((locals 0).2 + (locals 0).1 + phdr.memPage) rest
    else heapAfter locals h rest

/-- The pointers, and the locals to come. -/
structure HeapOf (P : Process) (locals : ℕ → UInt32 × UInt32) (h : UInt32) : Prop where
  start : P.heapStart = h
  fin : P.heapEnd = h
  locals : P.locals = locals

/-- A call on the file, the pages or memory. -/
theorem onLoader_keeps {α : Type} {x : Load α} (hx : KeepsFile x) (hP : HeapOf P locals h) :
    Ensures (onLoader x) P fun _ P' =>
      HeapOf P' locals h ∧ P'.loader.file = P.loader.file := by
  intro r P' hrun
  change (x.run P.loader).map _ = _ at hrun
  obtain ⟨⟨a, L⟩, hx', hres⟩ := Option.map_eq_some_iff.1 hrun
  cases hres
  exact ⟨⟨hP.start, hP.fin, hP.locals⟩, hx _ _ _ hx'⟩

/-- One header. -/
theorem loadHeader_heap {phdr : Elf32Phdr} (hP : HeapOf P locals h) :
    Ensures (loadHeader fuel phdr) P fun ok P' => ok = true →
      P'.loader.file = P.loader.file ∧ ∀ rest, ∃ locals' h', HeapOf P' locals' h' ∧
        heapAfter locals h (phdr :: rest) = heapAfter locals' h' rest := by
  unfold loadHeader
  split_ifs with hbad hload
  · exact ensures_pure nofun
  · unfold loadValid
    rw [ensures_get_bind]
    split_ifs
    · refine Ensures.seq (P := fun _ P₁ => P₁.loader.file = P.loader.file ∧
        HeapOf P₁ (fun n => locals (n + 1)) ((locals 0).2 + (locals 0).1 + phdr.memPage)) ?_ ?_
      · intro _ P₁ hrun
        cases hrun
        rw [← hP.locals]
        exact ⟨rfl, rfl, rfl, rfl⟩
      · rintro _ P₁ ⟨hfile, hP₁⟩ ok P₂ hrun _
        obtain ⟨hP₂, hfile₂⟩ := onLoader_keeps keepsFile_loadSegment hP₁ ok P₂ hrun
        refine ⟨hfile₂.trans hfile, fun rest => ⟨_, _, hP₂, ?_⟩⟩
        rw [heapAfter, if_pos hload]
    · exact ensures_pure nofun
  · refine ensures_pure fun _ => ⟨rfl, fun rest => ⟨locals, h, hP, ?_⟩⟩
    rw [heapAfter, if_neg hload]

/-- The bytes that are read at a position. -/
theorem onLoader_fileRead {size : ℕ} (hP : HeapOf P locals h) :
    Ensures (onLoader (fileRead size)) P fun bytes P' => HeapOf P' locals h ∧
      P'.loader.file = P.loader.file ∧
      bytes = (P.loader.file.bytes.drop P.loader.pos.toNat).take size := by
  intro bytes P' hrun
  cases hrun
  exact ⟨⟨hP.start, hP.fin, hP.locals⟩, rfl, rfl⟩

theorem onLoader_fileSeek {pos : ℤ} (hP : HeapOf P locals h) :
    Ensures (onLoader (fileSeek pos)) P fun _ P' => HeapOf P' locals h ∧
      P'.loader.file = P.loader.file ∧ P'.loader.pos = pos := by
  intro _ P' hrun
  change ((fileSeek pos).run P.loader).map _ = _ at hrun
  unfold fileSeek at hrun
  split_ifs at hrun
  · cases hrun
  · cases hrun
    exact ⟨⟨hP.start, hP.fin, hP.locals⟩, rfl, rfl⟩

/-- **The loop over the headers**, by induction on their number. -/
theorem loadHeaders_heap {n ofs : ℕ} (hP : HeapOf P locals h) :
    Ensures (loadHeaders fuel n ofs) P fun ok P' => ok = true →
      ∃ locals', HeapOf P' locals' (heapAfter locals h (headersAt P.loader.file.bytes n ofs)) := by
  induction n generalizing P locals h ofs with
  | zero => exact ensures_pure fun _ => ⟨locals, hP⟩
  | succ n ih =>
    unfold loadHeaders
    rw [ensures_get_bind]
    split_ifs
    · exact ensures_pure nofun
    · refine Ensures.seq (onLoader_fileSeek hP) ?_
      rintro _ P₁ ⟨hP₁, hfile₁, hpos₁⟩
      refine Ensures.seq (onLoader_fileRead hP₁) ?_
      rintro bytes P₂ ⟨hP₂, hfile₂, rfl⟩
      split_ifs
      · exact ensures_pure nofun
      · refine Ensures.seq (loadHeader_heap hP₂) fun goOn P₃ hgo => ?_
        split_ifs with hgoOn
        · obtain ⟨hfile₃, hheap⟩ := hgo hgoOn
          obtain ⟨locals', h', hP₃, hafter⟩ := hheap (headersAt P.loader.file.bytes n (ofs + 32))
          intro ok P' hrun hok
          have hrun' : (loadHeaders fuel n (ofs + 32)).run P₃ = some (ok, P') := by exact_mod_cast hrun
          have hnext := ih hP₃ ok P' hrun' hok
          rw [hfile₃, hfile₂, hfile₁, ← hafter] at hnext
          rw [headersAt]
          rwa [hfile₁, hpos₁, Int.toNat_natCast] at hnext
        · exact ensures_pure nofun

theorem setupStack_heap (hP : HeapOf P locals h) :
    Ensures setupStack P fun _ P' => HeapOf P' locals h := by
  unfold setupStack
  refine Ensures.seq (onLoader_keeps keepsFile_ask hP) fun kpage P₁ h₁ => ?_
  split_ifs
  · exact fun r P' hrun => (onLoader_keeps keepsFile_installPage h₁.1 r P' hrun).1
  · exact ensures_pure h₁.1

/-- **What `load` leaves in the pointers to the heap.** -/
theorem load_heap (hP : HeapOf P locals h) (hpos : P.loader.pos = 0) :
    Ensures (load fuel) P fun res P' => ∀ entry, res = some entry →
      ∃ locals', HeapOf P' locals' (heapAfter locals h (headersOf P.loader.file.bytes)) := by
  unfold load
  intro res P' hrun entry hres
  subst hres
  obtain ⟨pagedir, P₁, hask, hrun⟩ := run_bind_cases hrun
  obtain ⟨hP₁, hfile₁⟩ := onLoader_keeps keepsFile_ask hP _ _ hask
  have hpos₁ : P₁.loader.pos = 0 := by
    cases hask
    exact hpos
  split_ifs at hrun
  · cases hrun
  obtain ⟨file, P₂, hask₂, hrun⟩ := run_bind_cases hrun
  obtain ⟨hP₂, hfile₂⟩ := onLoader_keeps keepsFile_ask hP₁ _ _ hask₂
  have hpos₂ : P₂.loader.pos = 0 := by
    cases hask₂
    exact hpos₁
  split_ifs at hrun
  · cases hrun
  obtain ⟨bytes, P₃, hread, hrun⟩ := run_bind_cases hrun
  obtain ⟨hP₃, hfile₃, hbytes⟩ := onLoader_fileRead hP₂ _ _ hread
  rw [hpos₂, hfile₂, hfile₁, Int.toNat_zero, List.drop_zero] at hbytes
  have hfile : P₃.loader.file = P.loader.file := hfile₃.trans (hfile₂.trans hfile₁)
  split_ifs at hrun
  · cases hrun
  obtain ⟨ok, P₄, hheaders, hrun⟩ := run_bind_cases hrun
  split_ifs at hrun with hok
  · cases hrun
  have hheap : ∃ locals', HeapOf P₄ locals' (heapAfter locals h (headersOf P.loader.file.bytes)) := by
    unfold headersOf
    rw [← hbytes, ← hfile]
    by_cases hlow : (ehdrOf bytes).ePhoff.toNat < 2 ^ 31
    · rw [toOff_of_lt hlow] at hheaders
      exact loadHeaders_heap hP₃ ok P₄ hheaders (Bool.not_eq_false ok ▸ hok)
    · -- an offset below zero is refused
      have hneg : toOff (ehdrOf bytes).ePhoff < 0 := by
        have hlt := (ehdrOf bytes).ePhoff.toNat_lt
        unfold toOff
        rw [if_neg hlow]
        omega
      cases hn : (ehdrOf bytes).ePhnum with
      | zero =>
        rw [hn] at hheaders
        cases hheaders
        exact ⟨locals, hP₃⟩
      | succ n =>
        rw [hn] at hheaders
        unfold loadHeaders at hheaders
        obtain ⟨_, _, hget, hheaders⟩ := run_bind_cases hheaders
        cases hget
        rw [if_pos (.inl hneg)] at hheaders
        cases hheaders
        exact absurd rfl hok
  obtain ⟨locals', hP₄⟩ := hheap
  obtain ⟨stack, P₅, hstack, hrun⟩ := run_bind_cases hrun
  have hP₅ := setupStack_heap hP₄ _ _ hstack
  split_ifs at hrun
  · cases hrun
    exact ⟨locals', hP₅⟩
  · cases hrun

/-- Without `PT_LOAD` the pointers stay. -/
theorem heapAfter_none (hnone : ¬∃ s ∈ headers, Loadable s) : heapAfter locals h headers = h := by
  induction headers with
  | nil => rfl
  | cons phdr rest ih =>
    have hphdr : ¬phdr.pType = 1 := fun hload => hnone ⟨phdr, List.mem_cons_self, hload⟩
    rw [heapAfter, if_neg hphdr]
    exact ih fun ⟨s, hs, hload⟩ => hnone ⟨s, List.mem_cons_of_mem _ hs, hload⟩

/-- With the same values for all entries, the last segment decides. -/
theorem heapAfter_const (hload : ∃ s ∈ headers, Loadable s) :
    ∃ memPage, ∀ x h, heapAfter (fun _ => (0, x)) h headers = x + memPage := by
  induction headers with
  | nil =>
    obtain ⟨s, hs, -⟩ := hload
    cases hs
  | cons phdr rest ih =>
    by_cases hrest : ∃ s ∈ rest, Loadable s
    · obtain ⟨memPage, hpage⟩ := ih hrest
      refine ⟨memPage, fun x h => ?_⟩
      rw [heapAfter]
      split_ifs
      · exact hpage x _
      · exact hpage x h
    · have hphdr : phdr.pType = 1 := by
        obtain ⟨s, hs, hload⟩ := hload
        rcases List.mem_cons.1 hs with rfl | hs
        · exact hload
        · exact absurd ⟨s, hs, hload⟩ hrest
      refine ⟨phdr.memPage, fun x h => ?_⟩
      rw [heapAfter, if_pos hphdr, UInt32.add_zero]
      exact heapAfter_none hrest

/-- **The heap begins after the image, at a page that depends on the headers alone, if and only if no
header is `PT_LOAD`.** -/
theorem load_heapRight_iff (fuel : ℕ) (headers : List Elf32Phdr)
    (haccepted : ∃ P P', Accepts fuel headers P P') :
    HeapRight fuel headers ↔ ∀ s ∈ headers, ¬Loadable s := by
  constructor
  · rintro ⟨start, -, -, hstart⟩ s hs hload
    obtain ⟨P, P', hfresh, hheaders, entry, hrun⟩ := haccepted
    obtain ⟨memPage, hpage⟩ := heapAfter_const ⟨s, hs, hload⟩
    -- the same call, with other values on the stack
    have hother : ∀ x, start = x + memPage := by
      intro x
      obtain ⟨Q', hrun', -⟩ :=
        blind_load P { P with locals := fun _ => (0, x) } rfl (some entry) P' hrun
      have hfresh' : Process.Fresh { P with locals := fun _ => (0, x) } :=
        ⟨hfresh.pos, hfresh.heapStart, hfresh.heapEnd⟩
      obtain ⟨hQ, -⟩ := hstart _ Q' ⟨hfresh', hheaders, entry, hrun'⟩
      obtain ⟨locals', hheap⟩ := load_heap (P := { P with locals := fun _ => (0, x) })
        ⟨hfresh.heapStart, hfresh.heapEnd, rfl⟩ hfresh.pos _ Q' hrun' entry rfl
      rw [← hQ, hheap.start, ← hpage x 0, ← hheaders]
    have hzero := (hother 0).symm.trans (hother 1)
    rw [UInt32.zero_add, ← UInt32.toNat_inj, UInt32.toNat_add] at hzero
    have hlt := memPage.toNat_lt
    have hone : (1 : UInt32).toNat = 1 := rfl
    omega
  · intro hnone
    have hnone' : ¬∃ s ∈ headers, Loadable s := fun ⟨s, hs, hload⟩ => hnone s hs hload
    refine ⟨0, rfl, fun s hs hload => absurd hload (hnone s hs), ?_⟩
    rintro P P' ⟨hfresh, hheaders, entry, hrun⟩
    obtain ⟨locals', hheap⟩ :=
      load_heap ⟨hfresh.heapStart, hfresh.heapEnd, rfl⟩ hfresh.pos _ P' hrun entry rfl
    rw [hheaders, heapAfter_none hnone'] at hheap
    exact ⟨hheap.start, hheap.fin⟩

/-- An executable with `n` program headers from byte 52 on. -/
def ehdrBytes (n : UInt8) : List UInt8 :=
  [0x7f, 0x45, 0x4c, 0x46, 1, 1, 1, 0, 0, 0, 0, 0, 0, 0, 0, 0, 2, 0, 3, 0, 1, 0, 0, 0, 0, 0x80, 4, 8,
    52, 0, 0, 0, 0, 0, 0, 0, 0, 0, 0, 0, 52, 0, 32, 0, n, 0, 0, 0, 0, 0, 0, 0]

/-- A segment of the file's 84 bytes at `0x8048000`. -/
def phdrBytes : List UInt8 :=
  [1, 0, 0, 0, 0, 0, 0, 0, 0, 0x80, 4, 8, 0, 0, 0, 0, 84, 0, 0, 0, 84, 0, 0, 0, 5, 0, 0, 0, 0, 0x10, 0, 0]

/-- All memory is met, and the stack holds 0 and 1. -/
def processOf (bytes : List UInt8) (h : bytes.length < 2 ^ 31) : Process :=
  ⟨⟨⟨bytes, h⟩, 0, fun _ => none, fun _ => true, []⟩, 0, 0, fun _ => (0, 1)⟩

/-- The executable is accepted, and the heap begins in a page. -/
theorem run_load_one :
    ((load 2).run (processOf (ehdrBytes 1 ++ phdrBytes) (by decide))).map
      (fun r => (r.1, r.2.heapStart)) = some (some (0x8048000, 0xbfffffec), 0x8048001) := by
  decide +kernel

/-- **A file with one segment**, which is `PT_LOAD`. -/
theorem load_heapRight_iff_one :
    (HeapRight 2 (headersOf (ehdrBytes 1 ++ phdrBytes)) ↔
      ∀ s ∈ headersOf (ehdrBytes 1 ++ phdrBytes), ¬Loadable s) ∧
    (headersOf (ehdrBytes 1 ++ phdrBytes)).map (·.pType) = [1] := by
  obtain ⟨⟨res, P'⟩, hrun, hres⟩ := Option.map_eq_some_iff.1 run_load_one
  obtain ⟨rfl, -⟩ := Prod.mk.inj hres
  exact ⟨load_heapRight_iff 2 _ ⟨_, P', ⟨rfl, rfl, rfl⟩, rfl, _, hrun⟩, by decide +kernel⟩

/-- **The heap does not begin after every image.** -/
theorem not_heapRight : ¬∀ (fuel : ℕ) (headers : List Elf32Phdr),
    (∃ P P', Accepts fuel headers P P') → HeapRight fuel headers := by
  intro h
  obtain ⟨⟨res, P'⟩, hrun, hres⟩ := Option.map_eq_some_iff.1 run_load_one
  obtain ⟨hentry, hheap⟩ := Prod.mk.inj hres
  dsimp only at hentry hheap
  subst hentry
  have haccepts : Accepts 2 (headersOf (ehdrBytes 1 ++ phdrBytes))
      (processOf (ehdrBytes 1 ++ phdrBytes) (by decide)) P' :=
    ⟨⟨rfl, rfl, rfl⟩, rfl, _, hrun⟩
  obtain ⟨start, halign, -, hstart⟩ := h 2 _ ⟨_, P', haccepts⟩
  have heq := (hstart _ P' haccepts).1
  rw [hheap] at heq
  rw [← heq] at halign
  exact absurd halign (by decide)

end Heap

end Image
end HwMemory
end CS162

/-
# Runs of the page directory calls

From `paging_init` on, the kernel gets pages and gives them back, writes to the pages that it holds
or has mapped, and makes, changes, asks and destroys page directories, in any order.
`PageCall.after` says what each call does to the address spaces, and `PageCall.Allowed` what its
caller has to see to.
-/

import CS162.Basis.Runs
import CS162.Paging.Boot

namespace CS162
namespace Paging

open Basis Threads

/-! ### The calls -/

/-- A call.  `p` and `kpage` are pages, `pd` is a directory. -/
inductive PageCall
  | getPage (user zero : Bool)
  | freePage (p : ℕ)
  | write (p off : ℕ) (bytes : List UInt8)
  | create
  | setPage (pd upage kpage : ℕ) (writable : Bool)
  | lookup (pd uaddr : ℕ)
  | clearPage (pd upage : ℕ)
  | isDirty (pd vpage : ℕ)
  | setDirty (pd vpage : ℕ) (dirty : Bool)
  | isAccessed (pd vpage : ℕ)
  | setAccessed (pd vpage : ℕ) (accessed : Bool)
  | destroy (pd : ℕ)

namespace PageCall

/-- The code of a call.  A `bool` is 0 or 1, and what returns nothing returns 0. -/
def perform (R : Ram) (init : ℕ) : PageCall → OnHeap ℕ
  | .getPage user zero => pallocGetPage R.layout { zero := zero, user := user }
  | .freePage p => do
    pallocFreePage R.layout p
    return 0
  | .write p off bytes => do
    modify fun H => { H with mem := store H.mem (p + off) bytes }
    return 0
  | .create => pagedirCreate R init
  | .setPage pd upage kpage writable => do
    return (← pagedirSetPage R init pd upage kpage writable).toNat
  | .lookup pd uaddr => pagedirGetPage R pd uaddr
  | .clearPage pd upage => do
    pagedirClearPage R pd upage
    return 0
  | .isDirty pd vpage => do
    return (← pagedirIsDirty R pd vpage).toNat
  | .setDirty pd vpage dirty => do
    pagedirSetDirty R pd vpage dirty
    return 0
  | .isAccessed pd vpage => do
    return (← pagedirIsAccessed R pd vpage).toNat
  | .setAccessed pd vpage accessed => do
    pagedirSetAccessed R pd vpage accessed
    return 0
  | .destroy pd => do
    pagedirDestroy R init pd
    return 0

/-- What the caller has to see to.  A page is given back or mapped by who holds it, and mapped at an
address where nothing is; a directory that is named is there, and `init_page_dir` is not changed. -/
def Allowed (init : ℕ) (F : Spaces) : PageCall → Prop
  | .getPage _ _ => True
  | .freePage p => p ∈ F.held
  | .write p off bytes => F.Has p ∧ off + bytes.length ≤ 4096
  | .create => True
  | .setPage pd upage kpage _ => (pd ∈ F.dirs ∧ pd ≠ init) ∧
      (upage % 4096 = 0 ∧ upage < physBase) ∧ kpage ∈ F.held ∧ ∀ q, ¬F.Maps pd (upage / 4096) q
  | .lookup pd uaddr => pd ∈ F.dirs ∧ uaddr < physBase
  | .clearPage pd upage => pd ∈ F.dirs ∧ upage % 4096 = 0 ∧ upage < physBase
  | .isDirty pd vpage => pd ∈ F.dirs ∧ vpage < 2 ^ 32
  | .setDirty pd vpage _ => pd ∈ F.dirs ∧ vpage < 2 ^ 32
  | .isAccessed pd vpage => pd ∈ F.dirs ∧ vpage < 2 ^ 32
  | .setAccessed pd vpage _ => pd ∈ F.dirs ∧ vpage < 2 ^ 32
  | .destroy pd => pd = 0 ∨ pd ∈ F.dirs ∧ pd ≠ init

/-- The address spaces after a call that returned `r`. -/
noncomputable def after (init : ℕ) (F : Spaces) (r : ℕ) : PageCall → Spaces
  | .getPage _ _ => if r = 0 then F else { F with held := insert r F.held }
  | .freePage p => { F with held := F.held \ {p} }
  | .create => if r = 0 then F else F.addDir init r
  | .setPage pd upage kpage writable =>
    if r = 0 then F
    else { (F.grow pd (upage / 4096)).set pd (upage / 4096) (userPte kpage writable) with
      held := F.held \ {kpage} }
  | .clearPage pd upage => F.clear pd (upage / 4096)
  | .setDirty pd vpage dirty =>
    F.setFlag (fun e b => { e with dirty := b }) pd (vpage / 4096) dirty
  | .setAccessed pd vpage accessed =>
    F.setFlag (fun e b => { e with accessed := b }) pd (vpage / 4096) accessed
  | .destroy pd => if pd = 0 then F else F.remove pd
  | _ => F

/-- What a call returns. -/
def Answers (R : Ram) (F : Spaces) (H H' : KernelHeap) (r : ℕ) : PageCall → Prop
  | .getPage user zero => r = 0 ∧ R.Full H user ∨
      ((∃ k < R.pages user, r = R.page user k) ∧ ¬R.InUse H r) ∧
        (zero = true → ∀ i < 4096, H'.mem (r + i) = 0)
  | .write p off bytes => r = 0 ∧ H'.mem = store H.mem (p + off) bytes
  | .create => r = 0 ∧ R.Full H false ∨ (R.IsPage r ∧ ¬R.InUse H r) ∧ ¬R.Full H false
  | .setPage pd upage _ _ =>
    r = 0 ∧ (F.entry pd (upage / 4096) = none ∧ R.Full H false) ∨
      r = 1 ∧ ¬(F.entry pd (upage / 4096) = none ∧ R.Full H false)
  | .lookup pd uaddr => r = F.lookup pd uaddr
  | .isDirty pd vpage => r = ((F.entry pd (vpage / 4096)).any Pte.dirty).toNat
  | .isAccessed pd vpage => r = ((F.entry pd (vpage / 4096)).any Pte.accessed).toNat
  | _ => r = 0

/-- A page that the callers have before and after the call holds what it held, if the call is not
one that writes to it. -/
def Leaves (F F' : Spaces) (m m' : Memory) (c : PageCall) : Prop :=
  ∀ p, F.Has p → F'.Has p → (∀ off bytes, c ≠ .write p off bytes) →
    ∀ i < 4096, m' (p + i) = m (p + i)

end PageCall

variable {R : Ram} {init : ℕ} {boot : Set ℕ} {F F' : Spaces} {H H' : KernelHeap}
  {m m' : Memory} {c : PageCall} {d p r : ℕ}

theorem Spaces.Kept.leaves (h : F.Kept m m') : c.Leaves F F' m m' :=
  fun p hp _ _ i hi => h p hp i hi

theorem Spaces.Kept.leaves_after (h : F'.Kept m m') : c.Leaves F F' m m' :=
  fun p _ hp _ i hi => h p hp i hi

/-- **One call**, as its caller has to make it: it returns what it should, and the heap represents
the address spaces that it leads to. -/
theorem PageCall.perform_returns (hr : Represents R init boot F H) (hc : c.Allowed init F) :
    Returns (c.perform R init) H fun r H' => c.Answers R F H H' r ∧
      Represents R init boot (c.after init F r) H' ∧
      c.Leaves F (c.after init F r) H.mem H'.mem := by
  obtain ⟨use, h, hm⟩ := id hr
  cases c with
  | getPage user zero =>
    refine (pallocGetPage_got h.sized zero user).mono ?_
    rintro a H₁ (⟨rfl, rfl, hfull⟩ | ⟨hgot, hzero, hpool⟩)
    · exact ⟨.inl ⟨rfl, hfull⟩, by rw [after, if_pos rfl]; exact hr, (Spaces.Kept.refl F _).leaves⟩
    · refine ⟨.inr ⟨⟨hpool, hgot.fresh⟩, hzero⟩, ?_, Spaces.Kept.leaves ?_⟩
      · rw [after, if_neg hgot.page.ne_zero]
        exact hr.got hgot
      · exact h.kept hgot.page (h.fresh_not_has hgot.fresh) hgot.mem
  | freePage p =>
    have hp : p ∈ F.held := hc
    have hused : R.InUse H p :=
      (h.used p).2 (by rw [(h.held p).2 hp]; exact PageUse.noConfusion)
    refine (pallocFreePage_gave h.sized hused).seq fun _ H₁ hgave => returns_pure.2 ?_
    exact ⟨rfl, hr.gave hp hgave, (hr.gave_kept hp hgave).leaves_after⟩
  | write p off bytes =>
    obtain ⟨hp, hlen⟩ := hc
    have hsame : SameBut p H.mem (store H.mem (p + off) bytes) := by
      rintro a (ha | ha)
      · exact store_of_lt (by omega)
      · exact store_of_ge (by omega)
    refine returns_modify_bind.2 (returns_pure.2 ⟨⟨rfl, rfl⟩, hr.write hp hsame, ?_⟩)
    intro q hq _ hne i hi
    have hqp : q ≠ p := fun heq => hne off bytes (by rw [heq])
    have hapart := (h.has_isPage hq).apart (h.has_isPage hp) hqp
    exact hsame _ (by omega)
  | create =>
    refine (pagedirCreate_returns hr).mono ?_
    rintro a H₁ (⟨rfl, rfl, hfull⟩ | ⟨hpage, hfresh, hroom, hr', hkept⟩)
    · exact ⟨.inl ⟨rfl, hfull⟩, by rw [after, if_pos rfl]; exact hr, (Spaces.Kept.refl F _).leaves⟩
    · refine ⟨.inr ⟨⟨hpage, hfresh⟩, hroom⟩, ?_, hkept.leaves⟩
      rw [after, if_neg hpage.ne_zero]
      exact hr'
  | setPage pd upage kpage writable =>
    obtain ⟨⟨hd, hne⟩, ⟨hup, huser⟩, hk, hnot⟩ := hc
    refine (pagedirSetPage_returns hr hd hne hup huser hk hnot).seq ?_
    rintro ok H₁ (⟨rfl, rfl, hnone, hfull⟩ | ⟨rfl, hroom, hr', hkept⟩)
    · exact returns_pure.2 ⟨.inl ⟨rfl, hnone, hfull⟩, hr, (Spaces.Kept.refl F _).leaves⟩
    · exact returns_pure.2 ⟨.inr ⟨rfl, hroom⟩, hr', hkept.leaves⟩
  | lookup pd uaddr =>
    refine (pagedirGetPage_returns hr hc.1 hc.2).mono ?_
    rintro a H₁ ⟨rfl, ha⟩
    exact ⟨ha, hr, (Spaces.Kept.refl F _).leaves⟩
  | clearPage pd upage =>
    refine (pagedirClearPage_returns hr hc.1 hc.2.1 hc.2.2).seq ?_
    rintro _ H₁ ⟨hr', hkept⟩
    exact returns_pure.2 ⟨rfl, hr', hkept.leaves⟩
  | isDirty pd vpage =>
    refine (isSet_returns isFlag_dirty hr hc.1 hc.2).seq ?_
    rintro b H₁ ⟨rfl, rfl⟩
    exact returns_pure.2 ⟨rfl, hr, (Spaces.Kept.refl F _).leaves⟩
  | setDirty pd vpage dirty =>
    refine (setTo_returns isFlag_dirty hr hc.1 hc.2 dirty).seq ?_
    rintro _ H₁ ⟨hr', hkept⟩
    exact returns_pure.2 ⟨rfl, hr', hkept.leaves⟩
  | isAccessed pd vpage =>
    refine (isSet_returns isFlag_accessed hr hc.1 hc.2).seq ?_
    rintro b H₁ ⟨rfl, rfl⟩
    exact returns_pure.2 ⟨rfl, hr, (Spaces.Kept.refl F _).leaves⟩
  | setAccessed pd vpage accessed =>
    refine (setTo_returns isFlag_accessed hr hc.1 hc.2 accessed).seq ?_
    rintro _ H₁ ⟨hr', hkept⟩
    exact returns_pure.2 ⟨rfl, hr', hkept.leaves⟩
  | destroy pd =>
    by_cases hnull : pd = 0
    · refine Returns.seq (P := fun _ H₁ => H₁ = H) ?_ ?_
      · rw [pagedirDestroy, if_pos hnull]
        exact returns_pure.2 rfl
      · rintro _ H₁ rfl
        refine returns_pure.2 ⟨rfl, ?_, (Spaces.Kept.refl F _).leaves⟩
        rw [after, if_pos hnull]
        exact hr
    · obtain ⟨hd, hne⟩ := hc.resolve_left hnull
      refine (pagedirDestroy_returns hr hd hne).seq ?_
      rintro _ H₁ ⟨hr', hkept⟩
      refine returns_pure.2 ⟨rfl, ?_, ?_⟩
      · rw [after, if_neg hnull]
        exact hr'
      · rw [after, if_neg hnull]
        exact hkept.leaves_after

/-! ### Runs -/

/-- A call, and the address spaces and the heap after it. -/
def PageStep (R : Ram) (init : ℕ) (s : Spaces × KernelHeap) (c : PageCall)
    (t : Spaces × KernelHeap) : Prop :=
  ∃ r, (c.perform R init).run s.2 = some (r, t.2) ∧ t.1 = c.after init s.1 r

/-- **Any calls in any order.** -/
theorem represents_of_leads {s t : Spaces × KernelHeap}
    (hrun : Leads (PageStep R init) (fun s c => c.Allowed init s.1) s t)
    (hs : Represents R init boot s.1 s.2) : Represents R init boot t.1 t.2 := by
  refine hrun.inv (I := fun s => Represents R init boot s.1 s.2) ?_ hs
  rintro s c t hr hc ⟨r, hcall, hafter⟩
  rw [hafter]
  exact ((PageCall.perform_returns hr hc).of_run hcall).2.1

/-- **Page directories are separate maps.**  Once `paging_init` is over, whatever calls are made as
their callers have to make them: every call returns what the maps say, and no assertion fails; the
words in memory are the maps, and every page of the pools has its one use, so that none is mapped at
two places, lost or given back twice; and no call changes what another's page holds. -/
theorem pagedir_spaces (text : ℕ × ℕ) (hsized : R.Sized H)
    (hfree : 1 + (R.ramPages + 1023) / 1024 ≤ freeCnt H) :
    Returns (pagingInit R text) H fun init H₁ => ∀ F H₂,
      Leads (PageStep R init) (fun s c => c.Allowed init s.1)
          (bootSpaces text init R.ramPages, H₁) (F, H₂) →
        Represents R init {p | R.InUse H p} F H₂ ∧
        (∀ p d v d' v', F.Maps d v p → F.Maps d' v' p → d = d' ∧ v = v') ∧
        ∀ c : PageCall, c.Allowed init F → Returns (c.perform R init) H₂ fun r H₃ =>
          c.Answers R F H₂ H₃ r ∧ c.Leaves F (c.after init F r) H₂.mem H₃.mem := by
  refine (pagingInit_returns text hsized hfree).mono fun init H₁ hboot F H₂ hrun => ?_
  have hr : Represents R init {p | R.InUse H p} F H₂ := represents_of_leads hrun hboot
  refine ⟨hr, fun p d v d' v' hmaps hmaps' => ?_, fun c hc => ?_⟩
  · obtain ⟨use, h, -⟩ := hr
    exact PageUse.frame.inj (((h.frame p d v).2 hmaps).symm.trans ((h.frame p d' v').2 hmaps'))
  · exact (PageCall.perform_returns hr hc).mono fun r H₃ hpost => ⟨hpost.1, hpost.2.2⟩

/-- A memory of 314 pages, of which the kernel's pool has 37 and the user pool 21. -/
def smallRam : Ram where
  layout :=
    { descs := 0xc0020000
      kernelBase := 0xc0100000
      kernelPages := 37
      userBase := 0xc0125000
      descs_pos := by decide
      below := by decide
      aligned := by decide
      fits := by decide }
  userPages := 21
  ramPages := 314
  high := by decide
  apart := by decide
  userAligned := by decide
  userFits := by decide
  ramFits := by decide

def smallHeap : KernelHeap where
  mem := fun _ => 0xcc
  kernelMap := ⟨37, fun _ => false, by decide⟩
  userMap := ⟨21, fun _ => false, by decide⟩
  descCnt := 0

/-- **After two calls**, a directory that has been made maps nothing. -/
theorem pagedir_spaces_small :
    Returns (pagingInit smallRam (0, 0)) smallHeap fun init H₁ =>
      Returns (PageCall.create.perform smallRam init) H₁ fun pd H₂ => pd ≠ 0 →
        Returns ((PageCall.getPage true true).perform smallRam init) H₂ fun p H₃ =>
          ((∃ k < 21, p = smallRam.page true k) ∨ p = 0) ∧
          Returns ((PageCall.lookup pd 0x8048000).perform smallRam init) H₃ fun r _ => r = 0 := by
  refine (pagedir_spaces (0, 0) (fun user => by cases user <;> rfl) (by decide)).mono
    fun init H₁ h => ?_
  -- `pagedir_create`, then `palloc_get_page`
  obtain ⟨pd, H₂, hcreate, -⟩ := (h _ _ .refl).2.2 .create trivial
  refine ⟨pd, H₂, hcreate, fun hpd => ?_⟩
  have hmade : Leads (PageStep smallRam init) (fun s c => c.Allowed init s.1)
      (bootSpaces (0, 0) init smallRam.ramPages, H₁)
      ((bootSpaces (0, 0) init smallRam.ramPages).addDir init pd, H₂) :=
    Leads.next .refl (i := PageCall.create) trivial ⟨pd, hcreate, (if_neg hpd).symm⟩
  obtain ⟨p, H₃, hget, hpost⟩ := (h _ _ hmade).2.2 (.getPage true true) trivial
  refine ⟨p, H₃, hget, hpost.1.symm.imp (fun hp => hp.1.1) fun hp => hp.1, ?_⟩
  have hgot : Leads (PageStep smallRam init) (fun s c => c.Allowed init s.1)
      (bootSpaces (0, 0) init smallRam.ramPages, H₁)
      (PageCall.after init ((bootSpaces (0, 0) init smallRam.ramPages).addDir init pd) p
        (.getPage true true), H₃) :=
    hmade.next (i := PageCall.getPage true true) trivial ⟨p, hget, rfl⟩
  have hdirs : pd ∈ (PageCall.after init ((bootSpaces (0, 0) init smallRam.ramPages).addDir init pd) p
      (.getPage true true)).dirs := by
    unfold PageCall.after
    split_ifs <;> exact Set.mem_insert pd _
  refine ((h _ _ hgot).2.2 (.lookup pd 0x8048000) ⟨hdirs, by decide⟩).mono fun r H₄ hlookup => ?_
  refine hlookup.1.trans ?_
  unfold PageCall.after Spaces.lookup Spaces.addDir
  split_ifs <;> simp

end Paging
end CS162

/-
# Stacks of threads

`projects1-3/src/userprog/process.c`, lines 784-933: `install_page`, `setup_thread`,
`pthread_execute` and `start_pthread`, and the part of `pthread_exit` that gives the stack back
(lines 976-988).

Slot `i` of `pages->is_free` stands for the page `i + 1` pages below `PHYS_BASE`.  `start_pthread`
runs up to its `sema_up` while the creator is in `sema_down`; `struct thrd_info` has no field that
would tell the creator how it went.  So the creation fails silently once the thread exists
(`pthreadExecute_right_iff`).

The slots of live threads are not free and belong to one thread each, over whole runs
(`Leads.slots`).
-/

import CS162.Basis.Runs
import CS162.Userprog.CmdLine

namespace CS162
namespace Userprog
namespace Stacks

open CS162.Basis

/-- `struct thrd_info`. -/
structure ThrdInfo where
  sf : UInt32
  tf : UInt32
  arg : UInt32

/-- A process and the pages and blocks of the kernel. -/
structure State where
  /-- The next tid of `allocate_tid`. -/
  nextTid : ℕ
  /-- The threads that have not called `thread_exit`. -/
  live : List ℕ
  /-- `page_no` of the threads. -/
  pageNo : ℕ → ℕ
  /-- The tids of `thread_joins`, each with `joined`. -/
  threadJoins : List (ℕ × Bool)
  /-- The threads of `thread_list`. -/
  threadList : List ℕ
  /-- `pages->is_free`. -/
  isFree : ℕ → Bool
  pagedir : UInt32 → Option ℕ
  /-- Whether there is a page table for the stacks. -/
  stackTable : Bool
  /-- The pages of the user pool that are in use. -/
  pool : List ℕ
  /-- The next page that is handed out. -/
  nextPage : ℕ
  content : ℕ → Memory
  /-- Whether the requests for memory to come are met. -/
  memory : ℕ → Bool
  /-- History: the entry and the stack pointer of the threads that have gone to user mode. -/
  started : ℕ → Option (UInt32 × UInt32)

abbrev Kernel := Prog State

/-- A request for memory. -/
def request : Kernel Bool := do
  let S ← get
  set { S with memory := fun n => S.memory (n + 1) }
  return S.memory 0

/-- `PHYS_BASE - PGSIZE * (i + 1)`. -/
def upage (i : ℕ) : UInt32 := physBase - pgsize * UInt32.ofNat (i + 1)

/-- `palloc_get_page (PAL_USER)`. -/
def pallocGetPage : Kernel (Option ℕ) := do
  let delivered ← request
  if delivered = false then return none else
  let S ← get
  set { S with pool := S.nextPage :: S.pool, nextPage := S.nextPage + 1 }
  return some S.nextPage

/-- `palloc_free_page`. -/
def pallocFreePage (kpage : ℕ) : Kernel Unit :=
  modify fun S => { S with pool := S.pool.erase kpage }

/-- `install_page`: `pagedir_set_page` asks for a page table if there is none. -/
def installPage (addr : UInt32) (kpage : ℕ) : Kernel Bool := do
  let S ← get
  if S.pagedir addr ≠ none then return false else
  let delivered ← if S.stackTable then pure true else request
  if delivered = false then return false else
  modify fun S => { S with
    stackTable := true
    pagedir := Function.update S.pagedir addr (some kpage) }
  return true

/-- The first free slot from 1 on, below `MAX_THREADS`. -/
def State.firstSlot (S : State) : Option ℕ := (List.range' 1 126).find? S.isFree

/-- `is_free[i] = b`. -/
def State.setFree (S : State) (i : ℕ) (b : Bool) : State :=
  { S with isFree := Function.update S.isFree i b }

/-- The loop of `setup_thread`. -/
def takeSlot (t : ℕ) : Kernel (Option ℕ) := do
  let S ← get
  match S.firstSlot with
  | none => return none
  | some i =>
    set { S.setFree i false with pageNo := Function.update S.pageNo t i }
    return some i

/-- The call frame of the thread, in its page. -/
def pushFrame (info : ThrdInfo) : OnStack (Option UInt32) := do
  let some (ofs, _) ← push pgsize (leBytes info.arg) | return none
  let some (ofs, _) ← push ofs (leBytes info.tf) | return none
  let some (ofs, _) ← push ofs (leBytes 0) | return none
  return some ofs

/-- A program on a page. -/
def onPage {α : Type} (kpage : ℕ) (x : OnStack α) : Kernel α := fun S =>
  (x.run ⟨S.content kpage, fun _ => 0⟩).map fun r =>
    (r.1, { S with content := Function.update S.content kpage r.2.page })

/-- `setup_thread`: the entry and the stack pointer, `none` for `false`. -/
def setupThread (t : ℕ) (info : ThrdInfo) : Kernel (Option (UInt32 × UInt32)) := do
  let some kpage ← pallocGetPage | return none
  let some pageNo ← takeSlot t
    | pallocFreePage kpage
      return none
  let installed ← installPage (upage pageNo) kpage
  if installed = false then
    modify fun S => S.setFree pageNo true
    pallocFreePage kpage
    return none
  else
    let some ofs ← onPage kpage (pushFrame info)
      | modify fun S => S.setFree pageNo true
        pallocFreePage kpage
        return none
    return some (info.sf, upage pageNo + ofs)

/-- The end of `start_pthread`: where `setup_thread` failed, `join_elem->joined = true` and
`thread_exit`. -/
def afterSetup (t : ℕ) : Option (UInt32 × UInt32) → Kernel Unit
  | none => modify fun S => { S with
      threadJoins := S.threadJoins.map fun e => if e.1 = t then (t, true) else e
      live := S.live.erase t }
  | some user => modify fun S => { S with started := Function.update S.started t (some user) }

/-- `start_pthread`, to its `sema_up`.  An access through a null pointer does not return. -/
def startPthread (t : ℕ) (info : ThrdInfo) : Kernel Unit := do
  let joinElem ← request
  if joinElem = false then halt else
  modify fun S => { S with threadJoins := S.threadJoins ++ [(t, false)] }
  let threadElem ← request
  if threadElem = false then halt else
  modify fun S => { S with threadList := S.threadList ++ [t] }
  let success ← setupThread t info
  afterSetup t success

/-- `pthread_execute`: the tid, `none` for `TID_ERROR`. -/
def pthreadExecute (info : ThrdInfo) : Kernel (Option ℕ) := do
  -- `thread_create`
  let created ← request
  if created = false then return none else
  let S ← get
  let t := S.nextTid
  set { S with nextTid := t + 1, live := S.live ++ [t] }
  startPthread t info
  return some t

/-- What `pthread_exit` does to the stack of a thread, and `thread_exit`. -/
def exitStack (t : ℕ) : Kernel Unit :=
  modify fun S =>
    let addr := upage (S.pageNo t)
    { S.setFree (S.pageNo t) true with
      pagedir := Function.update S.pagedir addr none
      pool := (S.pagedir addr).elim S.pool S.pool.erase
      live := S.live.erase t }

/-! ### What the call is to do -/

/-- What a failed creation leaves. -/
structure Undone (S S' : State) : Prop where
  live : S'.live = S.live
  threadJoins : S'.threadJoins = S.threadJoins
  threadList : S'.threadList = S.threadList
  isFree : S'.isFree = S.isFree
  pagedir : S'.pagedir = S.pagedir
  pool : S'.pool = S.pool

/-- The thread runs on a stack of its own. -/
structure Created (t : ℕ) (S S' : State) : Prop where
  fresh : t ∉ S.live
  live : S'.live = S.live ++ [t]
  started : S'.started t ≠ none
  slot : ∃ i page, S'.pageNo t = i ∧ 1 ≤ i ∧ S'.isFree i = false ∧
    S'.pagedir (upage i) = some page ∧ page ∈ S'.pool ∧ ∀ u ∈ S.live, S'.pageNo u ≠ i

/-- The stack of a thread can be set up, from the request `k` for memory on. -/
def State.CanSetUp (S : State) (k : ℕ) : Prop :=
  S.memory k = true ∧ ∃ i, S.firstSlot = some i ∧ S.pagedir (upage i) = none ∧
    (S.stackTable = true ∨ S.memory (k + 1) = true)

/-- The thread can be created and its stack set up. -/
def State.CanCreate (S : State) : Prop :=
  S.memory 0 = true ∧ S.memory 1 = true ∧ S.memory 2 = true ∧ S.CanSetUp 3

/-- The call returns `TID_ERROR`, with nothing changed, where the thread cannot be created and its
stack set up, and the thread's tid where it can. -/
def CreatesRight (info : ThrdInfo) (S : State) : Prop :=
  Returns (pthreadExecute info) S fun r S' =>
    (r = none ∧ ¬S.CanCreate ∧ Undone S S') ∨ ∃ t, r = some t ∧ S.CanCreate ∧ Created t S S'

/-- The slots of live threads. -/
structure Slots (S : State) : Prop where
  tids : ∀ u ∈ S.live, u < S.nextTid
  nodup : S.live.Nodup
  taken : ∀ u ∈ S.live, S.pageNo u = 0 ∨ S.isFree (S.pageNo u) = false
  own : ∀ u ∈ S.live, ∀ v ∈ S.live, S.pageNo u = S.pageNo v → S.pageNo u = 0 ∨ u = v

section Parts

variable {S : State} {t i kpage : ℕ} {addr : UInt32} {info : ThrdInfo} {α : Type}

/-- The state after a page has been handed out. -/
def State.paged (S : State) : State :=
  { S with
    memory := fun n => S.memory (n + 1)
    pool := S.nextPage :: S.pool
    nextPage := S.nextPage + 1 }

theorem returns_request {f : Bool → Kernel α} {Q : α → State → Prop} :
    Returns (request >>= f) S Q ↔
      Returns (f (S.memory 0)) { S with memory := fun n => S.memory (n + 1) } Q := Iff.rfl

theorem pallocGetPage_returns (S : State) :
    Returns pallocGetPage S fun r S' => (r = some S.nextPage ∧ S.memory 0 = true ∧ S' = S.paged) ∨
      r = none ∧ S.memory 0 = false ∧ ∃ memory, S' = { S with memory := memory } := by
  unfold pallocGetPage
  rw [returns_request]
  cases hmem : S.memory 0 with
  | true =>
    rw [if_neg (by simp), returns_get_bind, returns_set_bind, returns_pure]
    exact .inl ⟨rfl, rfl, rfl⟩
  | false =>
    rw [if_pos rfl, returns_pure]
    exact .inr ⟨rfl, rfl, _, rfl⟩

theorem takeSlot_returns (t : ℕ) (S : State) :
    Returns (takeSlot t) S fun r S' => r = S.firstSlot ∧
      (r = none → S' = S) ∧ ∀ i, r = some i →
        S' = { S.setFree i false with pageNo := Function.update S.pageNo t i } := by
  unfold takeSlot
  rw [returns_get_bind]
  cases S.firstSlot with
  | none =>
    dsimp only
    rw [returns_pure]
    exact ⟨rfl, fun _ => rfl, nofun⟩
  | some i =>
    dsimp only
    rw [returns_set_bind, returns_pure]
    refine ⟨rfl, nofun, fun j hj => ?_⟩
    rw [Option.some.inj hj]

theorem pushFrame_returns (info : ThrdInfo) (P : StackPage) :
    Returns (pushFrame info) P fun r _ => r ≠ none := by
  unfold pushFrame
  refine Returns.bind (push_word (o := 4092) (by omega) ?_)
  refine Returns.bind (push_word (o := 4088) (by omega) ?_)
  refine Returns.bind (push_word (o := 4084) (by omega) ?_)
  exact returns_pure.2 nofun

/-- The frame is pushed, and changes pages alone. -/
theorem onPage_pushFrame_returns :
    Returns (onPage kpage (pushFrame info)) S fun r S' =>
      r ≠ none ∧ ∃ content, S' = { S with content := content } := by
  obtain ⟨r, P, hrun, hr⟩ := pushFrame_returns info ⟨S.content kpage, fun _ => 0⟩
  refine ⟨r, { S with content := Function.update S.content kpage P.page }, ?_, hr, _, rfl⟩
  show ((pushFrame info).run _).map _ = _
  rw [hrun]
  rfl

/-- **`install_page`** maps the page if nothing is mapped there and there is a page table. -/
theorem installPage_returns :
    Returns (installPage addr kpage) S fun ok S' =>
      (ok = true ↔ S.pagedir addr = none ∧ (S.stackTable = true ∨ S.memory 0 = true)) ∧
      ∃ table memory, S' = { S with
        stackTable := table
        memory := memory
        pagedir := if ok then Function.update S.pagedir addr (some kpage) else S.pagedir } := by
  unfold installPage
  rw [returns_get_bind]
  by_cases hmapped : S.pagedir addr = none
  · rw [if_neg (not_not.2 hmapped)]
    by_cases htable : S.stackTable = true
    · rw [if_pos htable, returns_pure_bind]
      dsimp only
      rw [if_neg (by simp), returns_modify_bind, returns_pure]
      exact ⟨⟨fun _ => ⟨hmapped, .inl htable⟩, fun _ => rfl⟩, _, _, rfl⟩
    · rw [if_neg htable, returns_request]
      dsimp only
      cases hmem : S.memory 0 with
      | true =>
        rw [if_neg (by simp), returns_modify_bind, returns_pure]
        exact ⟨⟨fun _ => ⟨hmapped, .inr rfl⟩, fun _ => rfl⟩, _, _, rfl⟩
      | false =>
        rw [if_pos rfl, returns_pure]
        refine ⟨⟨fun hno => (Bool.false_ne_true hno).elim, fun hyes => ?_⟩, S.stackTable, _, rfl⟩
        exact (hyes.2.elim htable fun hno => Bool.false_ne_true hno).elim
  · rw [if_pos hmapped, returns_pure]
    exact ⟨⟨fun hno => (Bool.false_ne_true hno).elim, fun hyes => absurd hyes.1 hmapped⟩,
      S.stackTable, S.memory, rfl⟩

/-- What a failed `setup_thread` leaves: all but what the thread itself has for a page number. -/
structure NotSetUp (t : ℕ) (S S' : State) : Prop where
  undone : Undone S S'
  nextTid : S'.nextTid = S.nextTid
  pageNo : ∀ u, u ≠ t → S'.pageNo u = S.pageNo u
  started : S'.started = S.started

/-- What a successful one leaves. -/
structure SetUp (t : ℕ) (S S' : State) : Prop where
  live : S'.live = S.live
  nextTid : S'.nextTid = S.nextTid
  slot : ∃ i page, S.firstSlot = some i ∧ S'.pageNo = Function.update S.pageNo t i ∧
    S'.isFree = Function.update S.isFree i false ∧ S'.pagedir (upage i) = some page ∧
    page ∈ S'.pool

/-- The slot that is free again is free. -/
theorem setFree_setFree (hi : S.isFree i = true) :
    Function.update (Function.update S.isFree i false) i true = S.isFree := by
  rw [Function.update_idem, ← hi, Function.update_eq_self]

theorem firstSlot_spec (h : S.firstSlot = some i) : 1 ≤ i ∧ i < 127 ∧ S.isFree i = true := by
  have hmem := List.mem_range'_1.1 (List.mem_of_find?_eq_some h)
  exact ⟨hmem.1, hmem.2, List.find?_some h⟩

theorem firstSlot_paged (S : State) : S.paged.firstSlot = S.firstSlot := rfl

/-- **`setup_thread`** undoes what it has done where it fails. -/
theorem setupThread_returns (t : ℕ) (info : ThrdInfo) (S : State) :
    Returns (setupThread t info) S fun r S' =>
      (r = none ∧ ¬S.CanSetUp 0 ∧ NotSetUp t S S') ∨ (r ≠ none ∧ S.CanSetUp 0 ∧ SetUp t S S') := by
  unfold setupThread
  refine (pallocGetPage_returns S).seq fun r S₁ h₁ => ?_
  obtain ⟨rfl, hmem, rfl⟩ | ⟨rfl, hmem, memory, rfl⟩ := h₁
  · dsimp only
    refine (takeSlot_returns t S.paged).seq fun slot S₂ h₂ => ?_
    obtain ⟨hslot, hnone, hsome⟩ := h₂
    rw [firstSlot_paged] at hslot
    cases slot with
    | none =>
      obtain rfl := hnone rfl
      dsimp only
      unfold pallocFreePage
      rw [returns_modify_bind, returns_pure]
      refine .inl ⟨rfl, fun h => ?_,
        ⟨⟨rfl, rfl, rfl, rfl, rfl, List.erase_cons_head ..⟩, rfl, fun _ _ => rfl, rfl⟩⟩
      obtain ⟨-, i, hi, -⟩ := h
      exact nomatch hslot.trans hi
    | some i =>
      obtain rfl := hsome i rfl
      have hfirst : S.firstSlot = some i := hslot.symm
      dsimp only
      generalize haddr : upage i = addr
      refine installPage_returns.seq fun ok S₃ h₃ => ?_
      obtain ⟨hok, table, memory, rfl⟩ := h₃
      have hiff : S.CanSetUp 0 ↔
          S.pagedir addr = none ∧ (S.stackTable = true ∨ S.memory 1 = true) := by
        rw [← haddr]
        constructor
        · rintro ⟨-, j, hj, hmap⟩
          obtain rfl := Option.some.inj (hfirst.symm.trans hj)
          exact hmap
        · exact fun h => ⟨hmem, i, hfirst, h⟩
      cases ok with
      | false =>
        rw [if_pos rfl]
        unfold pallocFreePage
        rw [returns_modify_bind, returns_modify_bind, returns_pure]
        refine .inl ⟨rfl, fun h => Bool.false_ne_true (hok.2 (hiff.1 h)), ⟨⟨rfl, rfl, rfl, ?_, rfl,
          List.erase_cons_head ..⟩, rfl, fun u hu => Function.update_of_ne hu .., rfl⟩⟩
        exact setFree_setFree (firstSlot_spec hfirst).2.2
      | true =>
        rw [if_neg (by simp)]
        refine onPage_pushFrame_returns.seq fun ofs S₄ h₄ => ?_
        obtain ⟨hofs, content, rfl⟩ := h₄
        cases ofs with
        | none => exact absurd rfl hofs
        | some ofs =>
          rw [returns_pure]
          refine .inr ⟨nofun, hiff.2 (hok.1 rfl), rfl, rfl, i, S.nextPage, hfirst, rfl, rfl, ?_,
            List.mem_cons_self⟩
          rw [haddr]
          simp only [if_true, Function.update_self]
  · dsimp only
    rw [returns_pure]
    refine .inl ⟨rfl, fun h => ?_,
      ⟨⟨rfl, rfl, rfl, rfl, rfl, rfl⟩, rfl, fun _ _ => rfl, rfl⟩⟩
    exact Bool.false_ne_true (hmem.symm.trans h.1)

end Parts

/-! ### Creating a thread -/

section Create

variable {S : State} {info : ThrdInfo} {Q : Option ℕ → State → Prop}

/-- The thread exists and is on both lists. -/
def State.registered (S : State) : State :=
  { S with
    nextTid := S.nextTid + 1
    live := S.live ++ [S.nextTid]
    threadJoins := S.threadJoins ++ [(S.nextTid, false)]
    threadList := S.threadList ++ [S.nextTid]
    memory := fun n => S.memory (n + 3) }

theorem pthreadExecute_none (h : S.memory 0 = false) :
    Returns (pthreadExecute info) S fun r S' =>
      r = none ∧ ∃ memory, S' = { S with memory := memory } := by
  unfold pthreadExecute
  rw [returns_request, if_pos h, returns_pure]
  exact ⟨rfl, _, rfl⟩

theorem ensures_request {α : Type} {f : Bool → Kernel α} {Q : α → State → Prop} :
    Ensures (request >>= f) S Q ↔
      Ensures (f (S.memory 0)) { S with memory := fun n => S.memory (n + 1) } Q := Iff.rfl

theorem startPthread_stuck {t : ℕ} (h : S.memory 0 = false ∨ S.memory 1 = false) :
    Ensures (startPthread t info) S fun _ _ => False := by
  unfold startPthread
  rw [ensures_request]
  split_ifs with h₀
  · exact ensures_halt
  · rw [ensures_modify_bind, ensures_request, if_pos (h.resolve_left h₀)]
    exact ensures_halt

/-- Without memory for the elements of the lists the call does not return. -/
theorem pthreadExecute_stuck (info : ThrdInfo) (h₀ : S.memory 0 = true)
    (h : S.memory 1 = false ∨ S.memory 2 = false) :
    Ensures (pthreadExecute info) S fun _ _ => False := by
  unfold pthreadExecute
  rw [ensures_request, if_neg (by simp [h₀]), ensures_get_bind]
  refine Ensures.seq (P := fun _ S₁ => S₁.memory 0 = S.memory 1 ∧ S₁.memory 1 = S.memory 2) ?_
    fun _ S₁ h₁ => ?_
  · exact Returns.ensures ⟨_, _, rfl, rfl, rfl⟩
  · refine Ensures.seq (startPthread_stuck ?_) fun _ _ hfalse => hfalse.elim
    rwa [h₁.1, h₁.2]

/-- What a creation that has registered the thread does. -/
theorem pthreadExecute_registered (info : ThrdInfo) (h₀ : S.memory 0 = true) (h₁ : S.memory 1 = true)
    (h₂ : S.memory 2 = true) :
    Returns (pthreadExecute info) S fun r S' => r = some S.nextTid ∧ ∃ success S₁,
      ((success = none ∧ ¬S.CanSetUp 3 ∧ NotSetUp S.nextTid S.registered S₁) ∨
        (success ≠ none ∧ S.CanSetUp 3 ∧ SetUp S.nextTid S.registered S₁)) ∧
      Returns (afterSetup S.nextTid success) S₁ fun _ S₂ => S' = S₂ := by
  unfold pthreadExecute
  rw [returns_request, if_neg (by simp [h₀]), returns_get_bind]
  dsimp only
  rw [returns_set_bind]
  refine Returns.bind ?_
  unfold startPthread
  rw [returns_request, if_neg (by simp [h₁]), returns_modify_bind, returns_request,
    if_neg (by simp [h₂]), returns_modify_bind]
  refine (setupThread_returns S.nextTid info S.registered).seq fun success S₁ h => ?_
  cases success with
  | none =>
    show Returns (modify _) S₁ _
    rw [returns_modify, returns_pure]
    exact ⟨rfl, none, S₁, h, returns_modify.2 rfl⟩
  | some user =>
    show Returns (modify _) S₁ _
    rw [returns_modify, returns_pure]
    exact ⟨rfl, some user, S₁, h, returns_modify.2 rfl⟩

/-- A slot that `setup_thread` takes is no live thread's. -/
theorem Slots.ne_firstSlot (h : Slots S) {u i : ℕ} (hu : u ∈ S.live) (hi : S.firstSlot = some i) :
    S.pageNo u ≠ i := by
  obtain ⟨hpos, -, hfree⟩ := firstSlot_spec hi
  rintro rfl
  rcases h.taken u hu with h0 | htaken
  · omega
  · exact Bool.false_ne_true (htaken.symm.trans hfree)

theorem Slots.nextTid_not_mem (h : Slots S) : S.nextTid ∉ S.live := fun hmem =>
  lt_irrefl _ (h.tids _ hmem)

/-- A creation that goes through. -/
theorem Slots.created (h : Slots S) {S₁ : State} {user : UInt32 × UInt32}
    (hsetUp : SetUp S.nextTid S.registered S₁) :
    Created S.nextTid S { S₁ with started := Function.update S₁.started S.nextTid (some user) } := by
  obtain ⟨i, page, hi, hpageNo, hfree, hpage, hpool⟩ := hsetUp.slot
  have hfirst : S.firstSlot = some i := hi
  refine ⟨h.nextTid_not_mem, hsetUp.live, ?_, i, page, ?_, (firstSlot_spec hfirst).1, ?_, hpage,
    hpool, fun u hu => ?_⟩
  · dsimp only
    rw [Function.update_self]
    exact Option.some_ne_none user
  · dsimp only
    rw [hpageNo, Function.update_self]
  · dsimp only
    rw [hfree, Function.update_self]
  · have hne : u ≠ S.nextTid := fun heq => h.nextTid_not_mem (heq ▸ hu)
    dsimp only
    rw [hpageNo, Function.update_of_ne hne]
    exact h.ne_firstSlot hu hfirst

/-- **`pthread_execute`** is right exactly if `thread_create` fails, or nothing does. -/
theorem pthreadExecute_right_iff (h : Slots S) :
    CreatesRight info S ↔ S.memory 0 = false ∨ S.CanCreate := by
  cases h₀ : S.memory 0 with
  | false =>
    refine ⟨fun _ => .inl rfl, fun _ => (pthreadExecute_none h₀).mono fun r S' hr => .inl ?_⟩
    obtain ⟨rfl, memory, rfl⟩ := hr
    refine ⟨rfl, fun hcan => Bool.false_ne_true (h₀.symm.trans hcan.1), ?_⟩
    exact ⟨rfl, rfl, rfl, rfl, rfl, rfl⟩
  | true =>
    by_cases hreg : S.memory 1 = true ∧ S.memory 2 = true
    · obtain ⟨r, S', hrun, rfl, success, S₁, hset, hafter⟩ :=
        pthreadExecute_registered info h₀ hreg.1 hreg.2
      obtain ⟨-, hno, -⟩ | ⟨hsome, hcan, hsetUp⟩ := hset
      · refine ⟨fun hright => ?_, fun hcan => ?_⟩
        · obtain ⟨hr, -⟩ | ⟨t, -, hcan, -⟩ := Returns.of_run hright hrun
          · cases hr
          · exact .inr hcan
        · exact absurd (hcan.resolve_left Bool.noConfusion).2.2.2 hno
      · obtain ⟨user, rfl⟩ := Option.ne_none_iff_exists'.1 hsome
        obtain rfl := returns_modify.1 hafter
        have hcanCreate : S.CanCreate := ⟨h₀, hreg.1, hreg.2, hcan⟩
        exact ⟨fun _ => .inr hcanCreate,
          fun _ => ⟨_, _, hrun, .inr ⟨S.nextTid, rfl, hcanCreate, h.created hsetUp⟩⟩⟩
    · have hstuck := pthreadExecute_stuck info h₀ (by
        rw [not_and_or, Bool.not_eq_true, Bool.not_eq_true] at hreg
        exact hreg)
      refine ⟨fun hright => ?_, fun hcan => ?_⟩
      · obtain ⟨r, S', hrun, -⟩ := hright
        exact (hstuck r S' hrun).elim
      · obtain ⟨-, h₁, h₂, -⟩ := hcan.resolve_left Bool.noConfusion
        exact absurd ⟨h₁, h₂⟩ hreg

end Create

/-! ### Runs -/

section Runs

variable {S S' : State} {info : ThrdInfo} {t : ℕ}

/-- The slots look at nothing else. -/
theorem Slots.congr (h : Slots S) (hlive : S'.live = S.live) (hnext : S.nextTid ≤ S'.nextTid)
    (hpageNo : ∀ u ∈ S.live, S'.pageNo u = S.pageNo u) (hfree : S'.isFree = S.isFree) :
    Slots S' := by
  refine ⟨?_, hlive ▸ h.nodup, ?_, ?_⟩ <;> rw [hlive]
  · exact fun u hu => (h.tids u hu).trans_le hnext
  · intro u hu
    rw [hpageNo u hu, hfree]
    exact h.taken u hu
  · intro u hu v hv
    rw [hpageNo u hu, hpageNo v hv]
    exact h.own u hu v hv

/-- A thread that has got a slot. -/
theorem Slots.add {i : ℕ} (h : Slots S) (hi : S.firstSlot = some i)
    (hlive : S'.live = S.live ++ [S.nextTid]) (hnext : S'.nextTid = S.nextTid + 1)
    (hpageNo : S'.pageNo = Function.update S.pageNo S.nextTid i)
    (hfree : S'.isFree = Function.update S.isFree i false) : Slots S' := by
  have hold : ∀ u ∈ S.live, S'.pageNo u = S.pageNo u := fun u hu => by
    have hne : u ≠ S.nextTid := (h.tids u hu).ne
    rw [hpageNo, Function.update_of_ne hne]
  have hnew : S'.pageNo S.nextTid = i := by rw [hpageNo, Function.update_self]
  have hcases : ∀ u ∈ S'.live, u ∈ S.live ∨ u = S.nextTid := fun u hu => by
    rwa [hlive, List.mem_append, List.mem_singleton] at hu
  constructor
  · intro u hu
    rcases hcases u hu with hu | rfl
    · exact (h.tids u hu).trans (by omega)
    · omega
  · rw [hlive, List.nodup_append]
    refine ⟨h.nodup, List.pairwise_singleton _ _, fun u hu v hv => ?_⟩
    rw [List.mem_singleton.1 hv]
    exact (h.tids u hu).ne
  · intro u hu
    rcases hcases u hu with hu | rfl
    · rw [hold u hu, hfree, Function.update_of_ne (h.ne_firstSlot hu hi)]
      exact h.taken u hu
    · right
      rw [hnew, hfree, Function.update_self]
  · intro u hu v hv huv
    rcases hcases u hu with hu | rfl <;> rcases hcases v hv with hv | rfl
    · rw [hold u hu, hold v hv] at huv
      rw [hold u hu]
      exact h.own u hu v hv huv
    · rw [hold u hu, hnew] at huv
      exact absurd huv (h.ne_firstSlot hu hi)
    · rw [hold v hv, hnew] at huv
      exact absurd huv.symm (h.ne_firstSlot hv hi)
    · exact .inr rfl

/-- Creating a thread. -/
theorem Slots.execute (h : Slots S) :
    Ensures (pthreadExecute info) S fun _ S' => Slots S' := by
  intro r S' hrun
  cases h₀ : S.memory 0 with
  | false =>
    obtain ⟨-, memory, rfl⟩ := (pthreadExecute_none h₀).of_run hrun
    exact h.congr rfl le_rfl (fun _ _ => rfl) rfl
  | true =>
    by_cases hreg : S.memory 1 = true ∧ S.memory 2 = true
    · obtain ⟨-, success, S₁, hset, hafter⟩ :=
        (pthreadExecute_registered info h₀ hreg.1 hreg.2).of_run hrun
      obtain ⟨rfl, -, hno⟩ | ⟨hsome, -, hsetUp⟩ := hset
      · obtain rfl := returns_modify.1 hafter
        refine h.congr ?_ ?_ (fun u hu => ?_) hno.undone.isFree
        · show S₁.live.erase S.nextTid = S.live
          rw [hno.undone.live]
          show (S.live ++ [S.nextTid]).erase S.nextTid = S.live
          rw [List.erase_append_right _ h.nextTid_not_mem, List.erase_cons_head, List.append_nil]
        · exact (Nat.le_succ _).trans_eq hno.nextTid.symm
        · exact hno.pageNo u fun heq => h.nextTid_not_mem (heq ▸ hu)
      · obtain ⟨user, rfl⟩ := Option.ne_none_iff_exists'.1 hsome
        obtain rfl := returns_modify.1 hafter
        obtain ⟨i, page, hi, hpageNo, hfree, -⟩ := hsetUp.slot
        exact h.add hi hsetUp.live hsetUp.nextTid hpageNo hfree
    · refine (pthreadExecute_stuck info h₀ ?_ r S' hrun).elim
      rw [not_and_or, Bool.not_eq_true, Bool.not_eq_true] at hreg
      exact hreg

/-- A thread that exits. -/
theorem Slots.exit (h : Slots S) (ht : t ∈ S.live) :
    Ensures (exitStack t) S fun _ S' => Slots S' := by
  intro r S' hrun
  obtain ⟨-, rfl⟩ := Prod.mk.inj (Option.some.inj hrun)
  have hmem : ∀ u ∈ S.live.erase t, u ∈ S.live ∧ u ≠ t := fun u hu => by
    rw [h.nodup.mem_erase_iff] at hu
    exact hu.symm
  refine ⟨fun u hu => h.tids u (hmem u hu).1, h.nodup.erase t, fun u hu => ?_, fun u hu v hv => ?_⟩
  · obtain ⟨hu, hne⟩ := hmem u hu
    by_cases heq : S.pageNo u = S.pageNo t
    · exact .inl ((h.own u hu t ht heq).resolve_right hne)
    · refine (h.taken u hu).imp id fun htaken => ?_
      exact (Function.update_of_ne heq ..).trans htaken
  · exact h.own u (hmem u hu).1 v (hmem v hv).1

/-- What the threads of a process do. -/
inductive Act where
  | execute (info : ThrdInfo)
  | exit (t : ℕ)

/-- One of them does it. -/
def Step (S : State) : Act → State → Prop
  | .execute info, S' => ∃ r, (pthreadExecute info).run S = some (r, S')
  | .exit t, S' => t ∈ S.live ∧ (exitStack t).run S = some ((), S')

/-- The main thread, which has slot 0, is alone. -/
structure Starts (S : State) : Prop where
  live : S.live.length ≤ 1
  tids : ∀ u ∈ S.live, u < S.nextTid
  pageNo : ∀ u ∈ S.live, S.pageNo u = 0

theorem Starts.slots (h : Starts S) : Slots S := by
  refine ⟨h.tids, ?_, fun u hu => .inl (h.pageNo u hu), fun u hu _ _ _ => .inl (h.pageNo u hu)⟩
  match hlive : S.live, h.live with
  | [], _ => exact List.nodup_nil
  | [u], _ => exact List.pairwise_singleton _ u

/-- **Over whole runs, each thread has a slot of its own**, which is not free. -/
theorem leads_slots (hstart : Starts S) (hrun : Leads Step (fun _ _ => True) S S') : Slots S' := by
  refine hrun.inv (fun {s i t} h _ hstep => ?_) hstart.slots
  cases i with
  | execute info =>
    obtain ⟨r, hrun⟩ := hstep
    exact h.execute r t hrun
  | exit u => exact h.exit hstep.1 () t hstep.2

end Runs

/-- A process with its main thread alone. -/
def mainAlone (memory : ℕ → Bool) : State where
  nextTid := 4
  live := [3]
  pageNo _ := 0
  threadJoins := [(3, false)]
  threadList := [3]
  isFree _ := true
  pagedir a := if a = upage 0 then some 0 else none
  stackTable := true
  pool := [0]
  nextPage := 1
  content _ _ := 0
  memory := memory
  started _ := none

theorem mainAlone_starts (memory : ℕ → Bool) : Starts (mainAlone memory) :=
  ⟨le_rfl, fun u hu => by rw [List.mem_singleton.1 hu]; exact Nat.lt_succ_self 3, fun _ _ => rfl⟩

/-- The first thread that `main` starts gets the second page of stacks. -/
theorem pthreadExecute_right_main : CreatesRight ⟨0, 0, 0⟩ (mainAlone fun _ => true) :=
  (pthreadExecute_right_iff (mainAlone_starts _).slots).2
    (.inr ⟨rfl, rfl, rfl, rfl, 1, by decide, by decide, .inl rfl⟩)

/-- There is no page for the stack. -/
theorem not_createsRight : ¬∀ info S, Slots S → CreatesRight info S := by
  intro hall
  have hslots : Slots (mainAlone fun n => n < 3) := (mainAlone_starts _).slots
  obtain ⟨r, S', hrun, rfl, -⟩ := pthreadExecute_registered ⟨0, 0, 0⟩
    (S := mainAlone fun n => n < 3) (by decide) (by decide) (by decide)
  obtain ⟨hr, -⟩ | ⟨t, -, hcan, -⟩ := Returns.of_run (hall ⟨0, 0, 0⟩ _ hslots) hrun
  · cases hr
  · exact absurd hcan.2.2.2.1 (by decide)

end Stacks
end Userprog
end CS162

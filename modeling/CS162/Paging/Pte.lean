/-
# Page directory and page table entries

An entry is a word with the number of a page in the upper 20 bits and flags in the lower 12.  `Pte`
is what such a word says; the masks of the code read and change one part of it each.

**Modelled source.** `projects1-3/src/threads/pte.h`.
-/

import CS162.Basis.BitFields
import CS162.Paging.Pools

namespace CS162
namespace Paging

open Basis Threads

/-! ### The code -/

/-- `PTE_ADDR`. -/
def pteAddr : ℕ := 0xfffff000

/-- `PTE_P`. -/
def pteP : ℕ := 0x1

/-- `PTE_W`. -/
def pteW : ℕ := 0x2

/-- `PTE_U`. -/
def pteU : ℕ := 0x4

/-- `PTE_A`. -/
def pteA : ℕ := 0x20

/-- `PTE_D`. -/
def pteD : ℕ := 0x40

/-- `pt_no`; `PTMASK` is `0x3ff000`. -/
def ptNo (va : ℕ) : ℕ := (va &&& 0x3ff000) >>> 12

/-- `pd_no`. -/
def pdNo (va : ℕ) : ℕ := va >>> 22

section
variable {σ : Type}

/-- `pde_create`. -/
def pdeCreate (pt : ℕ) : Prog σ ℕ := do
  assert (decide (pgOfs pt = 0))
  return (← vtop pt) ||| pteU ||| pteP ||| pteW

/-- `pde_get_pt`. -/
def pdeGetPt (pde : ℕ) : Prog σ ℕ := do
  assert (decide (pde &&& pteP ≠ 0))
  ptov (pde &&& pteAddr)

/-- `pte_create_kernel`. -/
def pteCreateKernel (page : ℕ) (writable : Bool) : Prog σ ℕ := do
  assert (decide (pgOfs page = 0))
  return (← vtop page) ||| pteP ||| (if writable then pteW else 0)

/-- `pte_create_user`. -/
def pteCreateUser (page : ℕ) (writable : Bool) : Prog σ ℕ := do
  return (← pteCreateKernel page writable) ||| pteU

/-- `pte_get_page`. -/
def pteGetPage (pte : ℕ) : Prog σ ℕ := ptov (pte &&& pteAddr)

end

/-! ### What an entry says -/

/-- The page that the entry is for, by its physical number, and the flags. -/
structure Pte where
  frame : ℕ
  present : Bool := false
  writable : Bool := false
  user : Bool := false
  accessed : Bool := false
  dirty : Bool := false
deriving DecidableEq

/-- The flags as bits. -/
def flagBits (present writable user accessed dirty : Bool) : ℕ :=
  present.toNat + 2 * writable.toNat + 4 * user.toNat + 0x20 * accessed.toNat + 0x40 * dirty.toNat

namespace Pte

def flags (e : Pte) : ℕ := flagBits e.present e.writable e.user e.accessed e.dirty

/-- The word. -/
def encode (e : Pte) : ℕ := 2 ^ 12 * e.frame + e.flags

/-- The kernel's address of the page. -/
def page (e : Pte) : ℕ := 4096 * e.frame + physBase

theorem flags_lt (e : Pte) : e.flags < 2 ^ 12 := by
  have hall : ∀ p w u a d, flagBits p w u a d < 2 ^ 12 := by decide
  exact hall _ _ _ _ _

theorem encode_lt {e : Pte} (h : e.frame < 2 ^ 20) : e.encode < 2 ^ 32 := by
  have hflags := e.flags_lt
  unfold encode
  omega

/-! ### Reading a part of it -/

theorem encode_and_present (e : Pte) : e.encode &&& pteP ≠ 0 ↔ e.present = true := by
  have hall : ∀ p w u a d, flagBits p w u a d &&& pteP ≠ 0 ↔ p = true := by decide
  rw [encode, field_and_low e.flags_lt (by decide)]
  exact hall _ _ _ _ _

theorem encode_and_dirty (e : Pte) : e.encode &&& pteD ≠ 0 ↔ e.dirty = true := by
  have hall : ∀ p w u a d, flagBits p w u a d &&& pteD ≠ 0 ↔ d = true := by decide
  rw [encode, field_and_low e.flags_lt (by decide)]
  exact hall _ _ _ _ _

theorem encode_and_accessed (e : Pte) : e.encode &&& pteA ≠ 0 ↔ e.accessed = true := by
  have hall : ∀ p w u a d, flagBits p w u a d &&& pteA ≠ 0 ↔ a = true := by decide
  rw [encode, field_and_low e.flags_lt (by decide)]
  exact hall _ _ _ _ _

theorem encode_and_addr {e : Pte} (h : e.frame < 2 ^ 20) :
    e.encode &&& pteAddr = 4096 * e.frame := by
  have hmask : pteAddr = 2 ^ 12 * (2 ^ 20 - 1) + 0 := rfl
  rw [encode, hmask, field_and_high h e.flags_lt (by decide), Nat.and_zero]
  rfl

/-! ### Changing a part of it -/

theorem encode_or_dirty (e : Pte) : e.encode ||| pteD = { e with dirty := true }.encode := by
  have hall : ∀ p w u a d, flagBits p w u a d ||| pteD = flagBits p w u a true := by decide
  rw [encode, field_or_low e.flags_lt (by decide), flags, hall]
  rfl

theorem encode_or_accessed (e : Pte) :
    e.encode ||| pteA = { e with accessed := true }.encode := by
  have hall : ∀ p w u a d, flagBits p w u a d ||| pteA = flagBits p w u true d := by decide
  rw [encode, field_or_low e.flags_lt (by decide), flags, hall]
  rfl

theorem encode_clear_dirty {e : Pte} (h : e.frame < 2 ^ 20) :
    e.encode &&& (2 ^ 32 - 1 - pteD) = { e with dirty := false }.encode := by
  have hall : ∀ p w u a d, flagBits p w u a d &&& 0xfbf = flagBits p w u a false := by decide
  have hmask : 2 ^ 32 - 1 - pteD = 2 ^ 12 * (2 ^ 20 - 1) + 0xfbf := rfl
  rw [encode, hmask, field_and_high h e.flags_lt (by decide), flags, hall]
  rfl

theorem encode_clear_accessed {e : Pte} (h : e.frame < 2 ^ 20) :
    e.encode &&& (2 ^ 32 - 1 - pteA) = { e with accessed := false }.encode := by
  have hall : ∀ p w u a d, flagBits p w u a d &&& 0xfdf = flagBits p w u false d := by decide
  have hmask : 2 ^ 32 - 1 - pteA = 2 ^ 12 * (2 ^ 20 - 1) + 0xfdf := rfl
  rw [encode, hmask, field_and_high h e.flags_lt (by decide), flags, hall]
  rfl

theorem encode_clear_present {e : Pte} (h : e.frame < 2 ^ 20) :
    e.encode &&& (2 ^ 32 - 1 - pteP) = { e with present := false }.encode := by
  have hall : ∀ p w u a d, flagBits p w u a d &&& 0xffe = flagBits false w u a d := by decide
  have hmask : 2 ^ 32 - 1 - pteP = 2 ^ 12 * (2 ^ 20 - 1) + 0xffe := rfl
  rw [encode, hmask, field_and_high h e.flags_lt (by decide), flags, hall]
  rfl

end Pte

/-! ### Indices -/

theorem ptNo_eq (va : ℕ) : ptNo va = va / 4096 % 1024 := by
  have hmask : (0x3ff000 : ℕ) >>> 12 = 2 ^ 10 - 1 := rfl
  rw [ptNo, Nat.shiftRight_and_distrib, hmask, Nat.and_two_pow_sub_one_eq_mod,
    Nat.shiftRight_eq_div_pow]

theorem pdNo_eq (va : ℕ) : pdNo va = va / 4096 / 1024 := by
  rw [pdNo, Nat.shiftRight_eq_div_pow, Nat.div_div_eq_div_mul]

/-! ### Making entries -/

section
variable {σ α : Type} {s : σ} {p : ℕ}

/-- The word for a page at a kernel's address. -/
def frameOf (p : ℕ) : ℕ := (p - physBase) / 4096

theorem sub_physBase (hp : p % 4096 = 0) (hbase : physBase ≤ p) :
    p - physBase = 2 ^ 12 * frameOf p + 0 := by
  unfold frameOf physBase at *
  omega

theorem page_of_frameOf {e : Pte} (hp : p % 4096 = 0) (hbase : physBase ≤ p)
    (he : e.frame = frameOf p) : e.page = p := by
  have hsub := sub_physBase hp hbase
  unfold Pte.page
  rw [he]
  omega

/-- The entry of `pte_create_kernel`. -/
def kernelPte (p : ℕ) (writable : Bool) : Pte :=
  { frame := frameOf p, present := true, writable := writable }

/-- The entry of `pte_create_user`. -/
def userPte (p : ℕ) (writable : Bool) : Pte :=
  { frame := frameOf p, present := true, writable := writable, user := true }

/-- The entry of `pde_create`: its flags are those of a page table entry. -/
def tablePde (p : ℕ) : Pte := userPte p true

theorem returns_pteCreateKernel_bind {f : ℕ → Prog σ α} {Q : α → σ → Prop} {writable : Bool}
    (hp : p % 4096 = 0) (hbase : physBase ≤ p) : Returns (pteCreateKernel p writable >>= f) s Q ↔
      Returns (f (kernelPte p writable).encode) s Q := by
  have hword : (p - physBase) ||| pteP ||| (if writable = true then pteW else 0) =
      (kernelPte p writable).encode := by
    rw [sub_physBase hp hbase, field_or_low (by decide) (by decide), Nat.zero_or,
      field_or_low (by decide) (by split_ifs <;> decide)]
    cases writable <;> rfl
  unfold pteCreateKernel
  rw [bind_assoc, returns_assert_bind, bind_assoc, returns_vtop_bind hbase, returns_pure_bind,
    hword]
  exact and_iff_right (decide_eq_true hp)

theorem returns_pteCreateUser_bind {f : ℕ → Prog σ α} {Q : α → σ → Prop} {writable : Bool}
    (hp : p % 4096 = 0) (hbase : physBase ≤ p) : Returns (pteCreateUser p writable >>= f) s Q ↔
      Returns (f (userPte p writable).encode) s Q := by
  have hall : ∀ w, flagBits true w false false false ||| pteU = flagBits true w true false false := by
    decide
  have hword : (kernelPte p writable).encode ||| pteU = (userPte p writable).encode := by
    rw [Pte.encode, field_or_low (Pte.flags_lt _) (by decide), Pte.flags]
    exact congrArg _ (hall writable)
  unfold pteCreateUser
  rw [bind_assoc, returns_pteCreateKernel_bind hp hbase, returns_pure_bind, hword]

theorem returns_pdeCreate_bind {f : ℕ → Prog σ α} {Q : α → σ → Prop} (hp : p % 4096 = 0)
    (hbase : physBase ≤ p) :
    Returns (pdeCreate p >>= f) s Q ↔ Returns (f (tablePde p).encode) s Q := by
  have hword : (p - physBase) ||| pteU ||| pteP ||| pteW = (tablePde p).encode := by
    rw [sub_physBase hp hbase, field_or_low (by decide) (by decide), Nat.zero_or,
      field_or_low (by decide) (by decide), field_or_low (by decide) (by decide)]
    rfl
  unfold pdeCreate
  rw [bind_assoc, returns_assert_bind, bind_assoc, returns_vtop_bind hbase, returns_pure_bind,
    hword]
  exact and_iff_right (decide_eq_true hp)

theorem returns_pteGetPage_bind {f : ℕ → Prog σ α} {Q : α → σ → Prop} {e : Pte}
    (he : e.page < 2 ^ 32) :
    Returns (pteGetPage e.encode >>= f) s Q ↔ Returns (f e.page) s Q := by
  unfold Pte.page at he
  unfold pteGetPage
  rw [Pte.encode_and_addr (by omega), returns_ptov_bind (by omega)]
  rfl

theorem returns_pdeGetPt_bind {f : ℕ → Prog σ α} {Q : α → σ → Prop} (hp : p % 4096 = 0)
    (hbase : physBase ≤ p) (hlt : p < 2 ^ 32) :
    Returns (pdeGetPt (tablePde p).encode >>= f) s Q ↔ Returns (f p) s Q := by
  have hpage : (tablePde p).page = p := page_of_frameOf hp hbase rfl
  have hpresent : (tablePde p).encode &&& pteP ≠ 0 := (Pte.encode_and_present _).2 rfl
  unfold pdeGetPt
  rw [bind_assoc, returns_assert_bind]
  refine (and_iff_right (decide_eq_true hpresent)).trans ?_
  have hget := returns_pteGetPage_bind (e := tablePde p) (f := f) (s := s) (Q := Q)
    (by rwa [hpage])
  rwa [hpage] at hget

end

end Paging
end CS162

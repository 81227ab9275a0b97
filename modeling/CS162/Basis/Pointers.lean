/-
# Fields behind pointers

A pointer of 32 bits is an address, null is 0.  `readField p off` and `writeField p off x` are
accesses to a field of 32 bits of what `p` points to; through a null pointer they stop the machine.
-/

import CS162.Basis.ByteMemory
import CS162.Basis.Program

namespace CS162
namespace Basis

variable {m : Memory} {α : Type} {p q off off' x : ℕ} {Q : α → Memory → Prop}

/-- The field of 32 bits at an offset. -/
def fieldAt (m : Memory) (p off : ℕ) : ℕ := numberAt m (p + off) 4

def setFieldAt (m : Memory) (p off x : ℕ) : Memory := store m (p + off) (bytesOf 4 x)

def readField (p off : ℕ) : Prog Memory ℕ :=
  if p = 0 then halt else do return fieldAt (← get) p off

def writeField (p off x : ℕ) : Prog Memory Unit :=
  if p = 0 then halt else modify fun m => setFieldAt m p off x

@[simp] theorem fieldAt_set_self (hx : x < 2 ^ 32) : fieldAt (setFieldAt m p off x) p off = x :=
  numberAt_store_self (by omega)

theorem fieldAt_set_of_apart (h : p + off + 4 ≤ q + off' ∨ q + off' + 4 ≤ p + off) :
    fieldAt (setFieldAt m q off' x) p off = fieldAt m p off :=
  numberAt_store_of_apart (by rwa [length_bytesOf])

/-- A write changes the four bytes of its field. -/
theorem setFieldAt_of_apart (h : q < p + off ∨ p + off + 4 ≤ q) : setFieldAt m p off x q = m q := by
  rcases h with h | h
  · exact store_of_lt h
  · exact store_of_ge (by rwa [length_bytesOf])

theorem fieldAt_congr {m' : Memory} (h : ∀ a, p + off ≤ a → a < p + off + 4 → m' a = m a) :
    fieldAt m' p off = fieldAt m p off :=
  numberAt_congr h

theorem returns_readField {f : ℕ → Prog Memory α} (hp : p ≠ 0) :
    Returns (readField p off >>= f) m Q ↔ Returns (f (fieldAt m p off)) m Q := by
  unfold readField
  rw [if_neg hp]
  exact returns_bind_of_run rfl

theorem returns_writeField {f : Unit → Prog Memory α} (hp : p ≠ 0) :
    Returns (writeField p off x >>= f) m Q ↔ Returns (f ()) (setFieldAt m p off x) Q := by
  unfold writeField
  rw [if_neg hp]
  exact returns_bind_of_run rfl

/-- A write that ends a program. -/
theorem returns_writeField_last {Q : Unit → Memory → Prop} (hp : p ≠ 0) :
    Returns (writeField p off x) m Q ↔ Q () (setFieldAt m p off x) := by
  unfold writeField
  rw [if_neg hp]
  exact returns_modify

/-- A read that ends a program. -/
theorem returns_readField_last {Q : ℕ → Memory → Prop} (hp : p ≠ 0) :
    Returns (readField p off) m Q ↔ Q (fieldAt m p off) m := by
  unfold readField
  rw [if_neg hp]
  exact returns_pure

end Basis
end CS162

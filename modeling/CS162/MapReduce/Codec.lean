/-
# The packet codec

`hw-map-reduce-rs/src/codec/mod.rs`, lines 57-145: `LengthDelimitedWriter` and
`LengthDelimitedReader`, with 64-bit lengths.

A buffer is its bytes.  A program that does not return panics: `send` of a packet that
is too long, `get_u32` and `split_to` of a buffer that is too short.
-/

import CS162.Basis.Bytes
import CS162.Basis.Program

namespace CS162
namespace MapReduce

open CS162.Basis

abbrev Bytes := List UInt8

/-- `u32::MAX`. -/
def u32Max : ℕ := 0xffffffff

/-! ### Writer -/

/-- `LengthDelimitedWriter::send`, on what the writer's buffer holds. -/
def send (b : Bytes) : Prog Bytes Unit := do
  if b.length ≤ u32Max then modify (· ++ (beBytes 4 b.length ++ b)) else halt

/-- `send` of packets, one after the other. -/
def sendAll : List Bytes → Prog Bytes Unit
  | [] => pure ()
  | p :: ps => do
    send p
    sendAll ps

/-- The buffer that `finish` returns after packets were sent. -/
def written (ps : List Bytes) : Option Bytes := ((sendAll ps).run []).map Prod.snd

/-! ### Reader -/

/-- `Buf::get_u32`. -/
def getU32 : Prog Bytes ℕ := do
  let buf ← get
  if 4 ≤ buf.length then
    set (buf.drop 4)
    return ofBE (buf.take 4)
  else halt

/-- `Bytes::split_to`. -/
def splitTo (at' : ℕ) : Prog Bytes Bytes := do
  let buf ← get
  if at' ≤ buf.length then
    set (buf.drop at')
    return buf.take at'
  else halt

/-- `LengthDelimitedReader::next`. -/
def next : Prog Bytes (Option Bytes) := do
  let buf ← get
  if buf = [] then return none
  else
    let len ← getU32
    let chunk ← splitTo len
    return some chunk

/-- All packets of a reader, for at most so many calls of `next`. -/
def collectFor : ℕ → Prog Bytes (List Bytes)
  | 0 => halt
  | turns + 1 => do
    let packet ← next
    match packet with
    | none => return []
    | some p =>
      let ps ← collectFor turns
      return p :: ps

/-- `collect`.  A packet takes at least four bytes. -/
def collect (buf : Bytes) : Option (List Bytes) := ((collectFor (buf.length + 1)).run buf).map Prod.fst

/-! ### What is written -/

/-- The bytes of a packet. -/
def frame (p : Bytes) : Bytes := beBytes 4 p.length ++ p

theorem length_frame (p : Bytes) : (frame p).length = 4 + p.length := by
  rw [frame, List.length_append, length_beBytes]

theorem frame_ne_nil (p : Bytes) : frame p ≠ [] := by
  refine List.ne_nil_of_length_pos ?_
  rw [length_frame]
  omega

/-- `send` writes the frame of a packet, unless the packet is too long. -/
theorem run_send (p buf : Bytes) :
    (send p).run buf = if p.length ≤ u32Max then some ((), buf ++ frame p) else none := by
  unfold send
  split <;> rfl

theorem run_sendAll (ps : List Bytes) (buf : Bytes) : (sendAll ps).run buf =
    if ∀ p ∈ ps, p.length ≤ u32Max then some ((), buf ++ (ps.map frame).flatten) else none := by
  induction ps generalizing buf with
  | nil =>
    rw [if_pos fun _ h => absurd h List.not_mem_nil, List.map_nil, List.flatten_nil, List.append_nil]
    rfl
  | cons p ps ih =>
    unfold sendAll
    by_cases hp : p.length ≤ u32Max
    · have hsend : (send p).run buf = some ((), buf ++ frame p) := by rw [run_send, if_pos hp]
      rw [run_bind_of_run hsend, ih, List.map_cons, List.flatten_cons, ← List.append_assoc]
      simp only [List.forall_mem_cons, hp, true_and]
    · rw [StateT.run_bind, run_send, if_neg hp, if_neg fun h => hp (h p List.mem_cons_self)]
      rfl

theorem written_eq_some_iff {ps : List Bytes} {b : Bytes} :
    written ps = some b ↔ (∀ p ∈ ps, p.length ≤ u32Max) ∧ (ps.map frame).flatten = b := by
  unfold written
  rw [run_sendAll, List.nil_append]
  split
  · rename_i hlen
    rw [Option.map_some, Option.some.injEq, and_iff_right hlen]
  · rename_i hlen
    exact iff_of_false nofun fun h => hlen h.1

/-! ### What is read -/

/-- One string is read, or the buffer ends before it does. -/
theorem run_next (buf : Bytes) : next.run buf =
    if buf = [] then some (none, [])
    else if 4 ≤ buf.length ∧ ofBE (buf.take 4) ≤ (buf.drop 4).length then
      some (some ((buf.drop 4).take (ofBE (buf.take 4))), (buf.drop 4).drop (ofBE (buf.take 4)))
    else none := by
  unfold next
  rw [run_bind_of_run (show (get : Prog Bytes Bytes).run buf = some (buf, buf) from rfl)]
  split
  · rename_i hnil
    rw [hnil]
    rfl
  · by_cases h4 : 4 ≤ buf.length
    · have hlen : getU32.run buf = some (ofBE (buf.take 4), buf.drop 4) := by
        unfold getU32
        rw [run_bind_of_run (show (get : Prog Bytes Bytes).run buf = some (buf, buf) from rfl), if_pos h4]
        rfl
      rw [run_bind_of_run hlen]
      unfold splitTo
      rw [StateT.run_bind, run_bind_of_run (show (get : Prog Bytes Bytes).run _ = some (_, _) from rfl)]
      by_cases hchunk : ofBE (buf.take 4) ≤ (buf.drop 4).length
      · rw [if_pos hchunk, if_pos ⟨h4, hchunk⟩]
        rfl
      · rw [if_neg hchunk, if_neg fun h => hchunk h.2]
        rfl
    · rw [if_neg fun h => h4 h.1]
      unfold getU32
      rw [StateT.run_bind, run_bind_of_run (show (get : Prog Bytes Bytes).run buf = some (buf, buf) from rfl),
        if_neg h4]
      rfl

theorem run_next_none {buf rest : Bytes} :
    next.run buf = some (none, rest) ↔ buf = [] ∧ rest = [] := by
  rw [run_next]
  constructor
  · intro h
    split at h
    · rename_i hnil
      cases h
      exact ⟨hnil, rfl⟩
    · split at h
      · cases h
      · cases h
  · rintro ⟨rfl, rfl⟩
    rfl

/-- **`next` reads a frame**, and accepts nothing else. -/
theorem run_next_some {buf p rest : Bytes} :
    next.run buf = some (some p, rest) ↔ p.length ≤ u32Max ∧ buf = frame p ++ rest := by
  rw [run_next]
  constructor
  · intro h
    split at h
    · cases h
    · split at h
      · rename_i hlen
        cases h
        obtain ⟨h4, hchunk⟩ := hlen
        have htake : (buf.take 4).length = 4 := by rw [List.length_take]; omega
        have hlength : ((buf.drop 4).take (ofBE (buf.take 4))).length = ofBE (buf.take 4) := by
          rw [List.length_take]
          omega
        have hlt := ofBE_lt (buf.take 4)
        have hbytes := beBytes_ofBE (buf.take 4)
        rw [htake] at hlt hbytes
        constructor
        · rw [hlength]
          exact Nat.le_pred_of_lt hlt
        · rw [frame, hlength, hbytes, List.append_assoc, List.take_append_drop, List.take_append_drop]
      · cases h
  · rintro ⟨hp, rfl⟩
    have h4 : (beBytes 4 p.length).length = 4 := length_beBytes _ _
    have hassoc : frame p ++ rest = beBytes 4 p.length ++ (p ++ rest) := List.append_assoc ..
    have hne : frame p ++ rest ≠ [] := fun h => frame_ne_nil p (List.append_eq_nil_iff.1 h).1
    have htake : (frame p ++ rest).take 4 = beBytes 4 p.length := by
      rw [hassoc, List.take_left' h4]
    have hdrop : (frame p ++ rest).drop 4 = p ++ rest := by
      rw [hassoc, List.drop_left' h4]
    have hlt : p.length < 256 ^ 4 := Nat.lt_succ_of_le hp
    have hlength : 4 ≤ (frame p ++ rest).length := by
      rw [List.length_append, length_frame]
      omega
    rw [if_neg hne, htake, hdrop, ofBE_beBytes_of_lt hlt, if_pos ⟨hlength, by simp⟩, List.take_left,
      List.drop_left]

/-! ### Round trips -/

/-- **The reader accepts what the writer writes, and nothing else.** -/
theorem run_collectFor {turns : ℕ} {buf : Bytes} {ps : List Bytes} (hturns : buf.length < turns) :
    (∃ rest, (collectFor turns).run buf = some (ps, rest)) ↔ written ps = some buf := by
  induction turns generalizing buf ps with
  | zero => exact absurd hturns (Nat.not_lt_zero _)
  | succ turns ih =>
    rw [written_eq_some_iff]
    unfold collectFor
    constructor
    · rintro ⟨rest, hrun⟩
      obtain ⟨packet, buf', hnext, hread⟩ := run_bind_cases hrun
      cases packet with
      | none =>
        obtain ⟨rfl, rfl⟩ := run_next_none.1 hnext
        cases hread
        exact ⟨fun p hp => absurd hp List.not_mem_nil, rfl⟩
      | some p =>
        obtain ⟨hp, rfl⟩ := run_next_some.1 hnext
        obtain ⟨ps', rest', hcollect, hpure⟩ := run_bind_cases hread
        cases hpure
        rw [List.length_append, length_frame] at hturns
        obtain ⟨hps, hflat⟩ := written_eq_some_iff.1 ((ih (by omega)).1 ⟨_, hcollect⟩)
        rw [List.map_cons, List.flatten_cons, hflat]
        exact ⟨List.forall_mem_cons.2 ⟨hp, hps⟩, rfl⟩
    · rintro ⟨hlen, rfl⟩
      match ps with
      | [] => exact ⟨[], rfl⟩
      | p :: ps =>
        obtain ⟨hp, hps⟩ := List.forall_mem_cons.1 hlen
        rw [List.map_cons, List.flatten_cons] at hturns ⊢
        rw [List.length_append, length_frame] at hturns
        obtain ⟨rest, hcollect⟩ := (ih (by omega)).2 (written_eq_some_iff.2 ⟨hps, rfl⟩)
        refine ⟨rest, ?_⟩
        rw [run_bind_of_run (run_next_some.2 ⟨hp, rfl⟩)]
        dsimp only
        rw [run_bind_of_run hcollect]
        rfl

theorem collect_eq_some_iff {buf : Bytes} {ps : List Bytes} :
    collect buf = some ps ↔ written ps = some buf := by
  rw [← run_collectFor (Nat.lt_succ_self buf.length)]
  unfold collect
  rw [Option.map_eq_some_iff]
  constructor
  · rintro ⟨⟨ps', rest⟩, hrun, rfl⟩
    exact ⟨rest, hrun⟩
  · rintro ⟨rest, hrun⟩
    exact ⟨(ps, rest), hrun, rfl⟩

/-- Packets that are not too long can be written. -/
theorem written_isSome {ps : List Bytes} (h : ∀ p ∈ ps, p.length ≤ u32Max) :
    written ps = some (ps.map frame).flatten :=
  written_eq_some_iff.2 ⟨h, rfl⟩

/-- **The packet codec**: packets that are not too long are read as they were written, and a
buffer is read to its end, as packets, exactly if it is what the writer writes for them. -/
theorem codec_exact :
    (∀ ps : List Bytes, (∀ p ∈ ps, p.length ≤ u32Max) →
      ∃ buf, written ps = some buf ∧ collect buf = some ps) ∧
    ∀ (buf : Bytes) (ps : List Bytes), collect buf = some ps ↔ written ps = some buf := by
  constructor
  · intro ps hps
    exact ⟨_, written_isSome hps, collect_eq_some_iff.2 (written_isSome hps)⟩
  · intro buf ps
    exact collect_eq_some_iff

/-- The string `hi` and an empty one come back. -/
theorem codec_exact_hello : ∃ buf, written [[104, 105], []] = some buf ∧
    collect buf = some [[104, 105], []] :=
  codec_exact.1 [[104, 105], []] (by decide)

end MapReduce
end CS162

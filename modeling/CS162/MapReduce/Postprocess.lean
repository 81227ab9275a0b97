/-
# Reading the output files

`hw-map-reduce-rs/src/client.rs`, lines 66-94: `postprocess_job`, which decodes the output files of
the reduce tasks one after the other and hands their pairs to the application's `process_output`.

It does not read them with the codec that they were written with.  `FrameCodec` is what is documented
of tokio_util's `LengthDelimitedCodec::new()` in a `Framed`: frames of at most 8 MiB.  So what the
reduce tasks wrote is read back exactly if no key and no output is longer (`postprocessJob_iff`),
whereas `LengthDelimitedWriter` takes packets of up to `u32::MAX` bytes.
-/

import CS162.MapReduce.Outputs

namespace CS162
namespace MapReduce

open CS162.Basis

/-- The longest frame of a `LengthDelimitedCodec::new()`. -/
def maxFrameLength : ℕ := 8 * 1024 * 1024

/-- A `Framed` file: `next` of what is left of the file is a frame and what is left then. -/
structure FrameCodec where
  next : Bytes → Run (Option (Bytes × Bytes))
  next_nil : next [] = pure none
  next_frame : ∀ p rest, p.length ≤ maxFrameLength → next (frame p ++ rest) = pure (some (p, rest))
  next_long : ∀ buf, 4 ≤ buf.length → maxFrameLength < ofBE (buf.take 4) → ∃ e, next buf = throw e

/-- The loop over the frames of a file, for at most so many turns. -/
def framePairs (C : FrameCodec) : ℕ → Bytes → Run (List KeyValue)
  | 0, _ => panics
  | turns + 1, buf => do
    match ← C.next buf with
    | none => return []
    | some (key, buf) =>
      match ← C.next buf with
      | none => return []
      | some (value, buf) =>
        let rest ← framePairs C turns buf
        return ⟨key, value⟩ :: rest

/-- The pairs of an output file, if it can be opened. -/
def outputPairs (C : FrameCodec) (file : Except String Bytes) : Run (List KeyValue) :=
  match file with
  | .error e => throw e
  | .ok content => framePairs C (content.length + 1) content

/-- `postprocess_job`; `named` is `app::named(app)`. -/
def postprocessJob (C : FrameCodec) (named : Run App) (files : List (Except String Bytes)) :
    Run Text := do
  let intermediate ← files.mapM (outputPairs C)
  let app ← named
  app.processOutputFn intermediate.flatten

/-- No packet of the pair is too long to be read. -/
def Short (kv : KeyValue) : Prop :=
  kv.key.length ≤ maxFrameLength ∧ kv.value.length ≤ maxFrameLength

section Files

variable {C : FrameCodec} {kv : KeyValue} {kvs : List KeyValue} {p rest content : Bytes} {turns : ℕ}

/-- A frame that is too long. -/
theorem FrameCodec.next_frame_long (hmax : p.length ≤ u32Max) (h : maxFrameLength < p.length) :
    ∃ e, C.next (frame p ++ rest) = throw e := by
  have hlength : 4 ≤ (frame p ++ rest).length := by
    rw [List.length_append, length_frame]
    omega
  refine C.next_long _ hlength ?_
  rw [frame, List.append_assoc, List.take_left' (length_beBytes ..),
    ofBE_beBytes_of_lt (Nat.lt_succ_of_le hmax)]
  exact h

/-- **Short pairs are read back.** -/
theorem framePairs_frames (hshort : ∀ kv ∈ kvs, Short kv) (hturns : (frames kvs).length < turns) :
    framePairs C turns (frames kvs) = pure kvs := by
  induction kvs generalizing turns with
  | nil =>
    obtain ⟨turns, rfl⟩ := Nat.exists_eq_succ_of_ne_zero (Nat.ne_zero_of_lt hturns)
    change C.next [] >>= _ = _
    rw [C.next_nil]
    rfl
  | cons kv kvs ih =>
    obtain ⟨turns, rfl⟩ := Nat.exists_eq_succ_of_ne_zero (Nat.ne_zero_of_lt hturns)
    obtain ⟨⟨hkey, hvalue⟩, hrest⟩ := List.forall_mem_cons.1 hshort
    rw [frames_cons, List.length_append, List.length_append, length_frame, length_frame] at hturns
    rw [frames_cons, framePairs, C.next_frame _ _ hkey, pure_bind]
    dsimp only
    rw [C.next_frame _ _ hvalue, pure_bind]
    dsimp only
    rw [ih hrest (by omega)]
    rfl

/-- **A pair that is not short is an error.** -/
theorem framePairs_long (hsend : ∀ kv ∈ kvs, Sendable kv) (hlong : ¬∀ kv ∈ kvs, Short kv)
    (hturns : (frames kvs).length < turns) : ∃ e, framePairs C turns (frames kvs) = throw e := by
  induction kvs generalizing turns with
  | nil => exact absurd (fun kv hkv => absurd hkv List.not_mem_nil) hlong
  | cons kv kvs ih =>
    obtain ⟨turns, rfl⟩ := Nat.exists_eq_succ_of_ne_zero (Nat.ne_zero_of_lt hturns)
    obtain ⟨⟨hkey, hvalue⟩, hrest⟩ := List.forall_mem_cons.1 hsend
    rw [frames_cons, List.length_append, List.length_append, length_frame, length_frame] at hturns
    rw [frames_cons, framePairs]
    by_cases hk : kv.key.length ≤ maxFrameLength
    · rw [C.next_frame _ _ hk, pure_bind]
      dsimp only
      by_cases hv : kv.value.length ≤ maxFrameLength
      · rw [C.next_frame _ _ hv, pure_bind]
        dsimp only
        have hrest' : ¬∀ kv ∈ kvs, Short kv := fun hall =>
          hlong (List.forall_mem_cons.2 ⟨⟨hk, hv⟩, hall⟩)
        obtain ⟨e, he⟩ := ih hrest hrest' (by omega : (frames kvs).length < turns)
        exact ⟨e, by rw [he]; rfl⟩
      · obtain ⟨e, he⟩ := C.next_frame_long hvalue (Nat.lt_of_not_le hv)
        exact ⟨e, by rw [he]; rfl⟩
    · obtain ⟨e, he⟩ := C.next_frame_long hkey (Nat.lt_of_not_le hk)
      exact ⟨e, by rw [he]; rfl⟩

end Files

/-! ### What the reduce tasks wrote -/

/-- Some call of `Worker::reduce` leaves an output file with these pairs. -/
def WritesFile (kvs : List KeyValue) (content : Bytes) : Prop :=
  ∃ keySort reduceFn read mapTasks aux,
    Ok (reduce keySort reduceFn read mapTasks aux) (.file content) ∧
      written (packets kvs) = some content

/-- `process_output` gets the pairs of all tasks, in order. -/
def ReadsBack (C : FrameCodec) (tasks : List (List KeyValue)) (contents : List Bytes) : Prop :=
  ∀ A : App, postprocessJob C (pure A) (contents.map .ok) = A.processOutputFn tasks.flatten

section Tasks

variable {C : FrameCodec} {kvs : List KeyValue} {tasks : List (List KeyValue)}
  {contents : List Bytes}

theorem contents_eq (h : List.Forall₂ WritesFile tasks contents) :
    contents = tasks.map frames ∧ ∀ kvs ∈ tasks, ∀ kv ∈ kvs, Sendable kv := by
  induction h with
  | nil => exact ⟨rfl, fun kvs hkvs => absurd hkvs List.not_mem_nil⟩
  | cons hfile _ ih =>
    obtain ⟨-, -, -, -, -, -, hwritten⟩ := hfile
    obtain ⟨hsend, rfl⟩ := written_packets_iff.1 hwritten
    obtain ⟨rfl, hrest⟩ := ih
    exact ⟨rfl, List.forall_mem_cons.2 ⟨hsend, hrest⟩⟩

theorem outputPairs_short (h : ∀ kv ∈ kvs, Short kv) :
    outputPairs C (.ok (frames kvs)) = pure kvs :=
  framePairs_frames h (Nat.lt_succ_self _)

theorem outputPairs_long (hsend : ∀ kv ∈ kvs, Sendable kv) (h : ¬∀ kv ∈ kvs, Short kv) :
    ∃ e, outputPairs C (.ok (frames kvs)) = throw e :=
  framePairs_long hsend h (Nat.lt_succ_self _)

/-- All files are read. -/
theorem mapM_short (h : ∀ kvs ∈ tasks, ∀ kv ∈ kvs, Short kv) :
    ((tasks.map frames).map .ok).mapM (outputPairs C) = pure tasks := by
  rw [List.map_map, List.mapM_map]
  have hall := mapM_ok fun kvs hkvs => outputPairs_short (C := C) (h kvs hkvs)
  rw [List.map_id'] at hall
  exact hall

/-- The first file with a packet that is too long ends the loop. -/
theorem mapM_long (hsend : ∀ kvs ∈ tasks, ∀ kv ∈ kvs, Sendable kv)
    (h : ¬∀ kvs ∈ tasks, ∀ kv ∈ kvs, Short kv) :
    ∃ e, ((tasks.map frames).map .ok).mapM (outputPairs C) = throw e := by
  induction tasks with
  | nil => exact absurd (fun kvs hkvs => absurd hkvs List.not_mem_nil) h
  | cons kvs tasks ih =>
    obtain ⟨hfirst, hrest⟩ := List.forall_mem_cons.1 hsend
    rw [List.map_cons, List.map_cons, List.mapM_cons]
    by_cases hkvs : ∀ kv ∈ kvs, Short kv
    · obtain ⟨e, he⟩ := ih hrest fun hall => h (List.forall_mem_cons.2 ⟨hkvs, hall⟩)
      rw [outputPairs_short hkvs, pure_bind, he]
      exact ⟨e, rfl⟩
    · obtain ⟨e, he⟩ := outputPairs_long (C := C) hfirst hkvs
      rw [he]
      exact ⟨e, rfl⟩

theorem readsBack_of_short (h : ∀ kvs ∈ tasks, ∀ kv ∈ kvs, Short kv) :
    ReadsBack C tasks (tasks.map frames) := by
  intro A
  unfold postprocessJob
  rw [mapM_short h, pure_bind, pure_bind]

/-- An application gets nothing where a packet is too long. -/
theorem not_readsBack_of_long (hsend : ∀ kvs ∈ tasks, ∀ kv ∈ kvs, Sendable kv)
    (h : ¬∀ kvs ∈ tasks, ∀ kv ∈ kvs, Short kv) : ¬ReadsBack C tasks (tasks.map frames) := by
  intro hreads
  obtain ⟨e, he⟩ := mapM_long (C := C) hsend h
  have hpure := hreads ⟨fun _ _ => pure [], fun _ _ _ => pure [], fun _ => pure []⟩
  unfold postprocessJob at hpure
  rw [he] at hpure
  cases hpure

/-- What `process_output` makes of the files. -/
theorem processOutputs_frames {f : List KeyValue → Run Text}
    (hsend : ∀ kvs ∈ tasks, ∀ kv ∈ kvs, Sendable kv) :
    processOutputs f (tasks.map frames) = f tasks.flatten := by
  have hfile : ∀ kvs ∈ tasks, filePairs (frames kvs) = pure kvs := fun kvs hkvs => by
    have hwritten := written_packets_iff.2 ⟨hsend kvs hkvs, rfl⟩
    rw [filePairs, collect_eq_some_iff.2 hwritten]
    exact congrArg pure (pairUp_packets kvs)
  have hall : (tasks.map frames).mapM filePairs = pure tasks := by
    rw [List.mapM_map]
    exact (mapM_ok hfile).trans (by rw [List.map_id'])
  unfold processOutputs
  rw [hall, pure_bind]

/-- **The output files are read back** exactly if no key and no output is longer than a frame of the
reader. -/
theorem postprocessJob_iff (h : List.Forall₂ WritesFile tasks contents) :
    ReadsBack C tasks contents ↔ ∀ kvs ∈ tasks, ∀ kv ∈ kvs, Short kv := by
  obtain ⟨rfl, hsend⟩ := contents_eq h
  constructor
  · exact fun hreads => by_contra fun hlong => not_readsBack_of_long hsend hlong hreads
  · exact readsBack_of_short

end Tasks

/-- Where all packets are short, the client prints the result of the run. -/
theorem JobRun.postprocessJob_eq {A : App} {S : Setup} {aux : Bytes} {files : List (String × Bytes)}
    (R : JobRun (A.job S aux files)) {C : FrameCodec} {tasks : List (List KeyValue)}
    (htasks : List.Forall₂ WritesFile tasks ((List.range S.nReduce).map R.out))
    (hshort : ∀ kvs ∈ tasks, ∀ kv ∈ kvs, Short kv) :
    postprocessJob C (pure A) (((List.range S.nReduce).map R.out).map .ok) = R.result := by
  obtain ⟨hcontents, hsend⟩ := contents_eq htasks
  unfold JobRun.result
  rw [hcontents, processOutputs_frames hsend]
  exact readsBack_of_short hshort A

/-! ### A reader, and a file that it does not read -/

/-- A reader as it is documented. -/
def FrameCodec.documented : FrameCodec where
  next buf :=
    if buf = [] then pure none
    else if buf.length < 4 then throw "bytes remaining on stream"
    else if maxFrameLength < ofBE (buf.take 4) then throw "frame size too big"
    else if (buf.drop 4).length < ofBE (buf.take 4) then
      -- without the length, which has been taken, nothing may be left
      if buf.drop 4 = [] then pure none else throw "bytes remaining on stream"
    else pure (some ((buf.drop 4).take (ofBE (buf.take 4)), (buf.drop 4).drop (ofBE (buf.take 4))))
  next_nil := rfl
  next_frame p rest hp := by
    have hlt : p.length < 256 ^ 4 := Nat.lt_of_le_of_lt hp (by decide)
    have hassoc : frame p ++ rest = beBytes 4 p.length ++ (p ++ rest) := List.append_assoc ..
    have hne : frame p ++ rest ≠ [] := fun h => frame_ne_nil p (List.append_eq_nil_iff.1 h).1
    have hlength : ¬(frame p ++ rest).length < 4 := by
      rw [List.length_append, length_frame]
      omega
    have hdata : ¬(p ++ rest).length < p.length := by
      rw [List.length_append]
      omega
    rw [if_neg hne, if_neg hlength, hassoc, List.take_left' (length_beBytes ..),
      List.drop_left' (length_beBytes ..), ofBE_beBytes_of_lt hlt, if_neg (Nat.not_lt.2 hp),
      if_neg hdata, List.take_left, List.drop_left]
  next_long buf hlength hlong := by
    have hne : buf ≠ [] := fun h => by
      rw [h] at hlength
      exact absurd hlength (by decide)
    exact ⟨_, by rw [if_neg hne, if_neg (Nat.not_lt.2 hlength), if_pos hlong]⟩

/-- A reduce task that reads one pair, and writes its key with an empty output. -/
theorem writesFile_single {key : Bytes} (hkey : key.length ≤ u32Max) :
    WritesFile [⟨key, []⟩] (frames [⟨key, []⟩]) := by
  have hsend : ∀ kv ∈ [(⟨key, []⟩ : KeyValue)], Sendable kv := fun kv hkv => by
    obtain rfl := List.mem_singleton.1 hkv
    exact ⟨hkey, Nat.zero_le _⟩
  have hwritten := written_packets_iff.2 ⟨hsend, rfl⟩
  have hgather : Ok (gather (fun _ => .ok (frames [⟨key, []⟩])) [⟨0, 0⟩]) (.inr [⟨key, []⟩]) :=
    ok_bind.2 ⟨_, ok_bucketPairs hsend, rfl⟩
  refine ⟨.insertion, fun _ _ _ => pure [], fun _ => .ok (frames [⟨key, []⟩]), [⟨0, 0⟩], [],
    ok_bind.2 ⟨_, hgather, ok_bind.2 ⟨frames [⟨key, []⟩], ?_, rfl⟩⟩, hwritten⟩
  have hframes : [] ++ frame key ++ frame [] = frames [⟨key, []⟩] := by
    rw [frames_cons, List.nil_append]
    exact congrArg (frame key ++ ·) (List.append_nil (frame [])).symm
  exact ok_bind.2 ⟨[], rfl, ok_bind.2 ⟨_, ok_sendTo.2 ⟨hkey, rfl⟩,
    ok_bind.2 ⟨_, ok_sendTo.2 ⟨Nat.zero_le _, rfl⟩, ok_pure.2 hframes⟩⟩⟩

/-- A key of 8 MiB and one byte. -/
def longKey : Bytes := List.replicate (maxFrameLength + 1) 97

/-- **Not everything that was written is read back.** -/
theorem not_readsBack : ¬∀ (C : FrameCodec) tasks contents,
    List.Forall₂ WritesFile tasks contents → ReadsBack C tasks contents := by
  intro h
  have hlength : longKey.length = maxFrameLength + 1 := List.length_replicate
  have hmax : maxFrameLength + 1 ≤ u32Max := by decide
  have hfiles : List.Forall₂ WritesFile [[⟨longKey, []⟩]] [frames [⟨longKey, []⟩]] :=
    .cons (writesFile_single (hlength ▸ hmax)) .nil
  have hshort : ¬∀ kvs ∈ [[(⟨longKey, []⟩ : KeyValue)]], ∀ kv ∈ kvs, Short kv := fun hall => by
    have hle := (hall _ (List.mem_singleton_self _) _ (List.mem_singleton_self _)).1
    change longKey.length ≤ maxFrameLength at hle
    omega
  exact not_readsBack_of_long (contents_eq hfiles).2 hshort (h .documented _ _ hfiles)

/-- One pair, of a key of one byte. -/
theorem postprocessJob_iff_one : ReadsBack .documented [[⟨[97], []⟩]] [frames [⟨[97], []⟩]] ↔
    ∀ kvs ∈ [[(⟨[97], []⟩ : KeyValue)]], ∀ kv ∈ kvs, Short kv :=
  postprocessJob_iff (.cons (writesFile_single (by decide)) .nil)

end MapReduce
end CS162

/-
# Map and reduce tasks

`hw-map-reduce-rs/src/worker/mod.rs`, lines 30-33, 60-198 and 293-323, and
`hw-map-reduce-rs/src/lib.rs`, lines 153-208: `Worker::map`, `Worker::reduce`, `read_map`
and `ihash`.

`Run` is what a task does: it panics (`none`), returns an error, or a value.  The FNV hash,
`sort_unstable_by_key`, and what is read from files and other workers, are parameters: the
sort is any that sorts (`KeySort`).

The files of a job's reduce tasks group what its map tasks emitted by key (`shuffle`).
-/

import CS162.Basis.Grouping
import CS162.MapReduce.Codec
import Mathlib.Data.List.Sort

namespace CS162
namespace MapReduce

open CS162.Basis

/-! ### Tasks that may fail -/

/-- A result with an error's message; `none` is a panic. -/
abbrev Run := ExceptT String Option

def panics {α : Type} : Run α := (none : Option (Except String α))

/-- The task returns the value. -/
def Ok {α : Type} (x : Run α) (a : α) : Prop := x.run = some (.ok a)

section Run

variable {α β : Type} {x : Run α} {f : α → Run β} {a : α} {b : β}

theorem ok_pure {c : α} : Ok (pure c : Run α) a ↔ c = a := by
  unfold Ok
  constructor
  · intro h
    cases h
    rfl
  · rintro rfl
    rfl

/-- A sequence succeeds if and only if both parts do. -/
theorem ok_bind : Ok (x >>= f) b ↔ ∃ a, Ok x a ∧ Ok (f a) b := by
  unfold Ok
  constructor
  · intro h
    match hx : x.run with
    | none =>
      rw [ExceptT.run_bind, hx] at h
      cases h
    | some (.error e) =>
      rw [ExceptT.run_bind, hx] at h
      cases h
    | some (.ok a) =>
      rw [ExceptT.run_bind, hx] at h
      exact ⟨a, rfl, h⟩
  · rintro ⟨a, hx, hf⟩
    rw [ExceptT.run_bind, hx]
    exact hf

theorem not_ok_throw {e : String} : ¬Ok (throw e : Run α) a := by
  intro h
  cases h

theorem not_ok_panics : ¬Ok (panics : Run α) a := by
  intro h
  cases h

/-- A task returns one value. -/
theorem Ok.unique {a' : α} (h : Ok x a) (h' : Ok x a') : a = a' :=
  Except.ok.inj (Option.some.inj (h.symm.trans h'))

end Run

/-! ### Key-value pairs -/

structure KeyValue where
  key : Bytes
  value : Bytes

def KeyValue.pair (kv : KeyValue) : Bytes × Bytes := (kv.key, kv.value)

/-- The values of a key. -/
def KeyValue.valuesOf (k : Bytes) (kvs : List KeyValue) : List Bytes :=
  Basis.valuesOf k (kvs.map KeyValue.pair)

/-- The keys, in order. -/
def keys (kvs : List KeyValue) : List Bytes := kvs.map KeyValue.key

/-- `sort_unstable_by_key(KeyValue::key)`: the pairs in some order in which the keys do not
decrease. -/
structure KeySort where
  sort : List KeyValue → List KeyValue
  perm : ∀ l, (sort l).Perm l
  sorted : ∀ l, (sort l).Pairwise fun a b => a.key ≤ b.key

abbrev MapFn := KeyValue → Bytes → Run (List (Except String KeyValue))
abbrev ReduceFn := Bytes → List Bytes → Bytes → Run Bytes

/-- `ihash`, with the FNV hash `finish`. -/
def ihash (finish : Bytes → UInt64) (key : Bytes) : ℕ := (finish key &&& 0x7fffffff).toNat

/-! ### `Worker::map` -/

/-- `send` on a writer's buffer. -/
def sendTo (buf p : Bytes) : Run Bytes :=
  match (send p).run buf with
  | some (_, buf') => pure buf'
  | none => panics

/-- The body of the loop over what `map_fn` returns. -/
def emit (hash : Bytes → ℕ) (nReduce : ℕ) (writers : List Bytes) (item : Except String KeyValue) :
    Run (List Bytes) := do
  match item with
  | .error e => throw e
  | .ok kv =>
    -- `% 0` panics
    if nReduce = 0 then panics
    else
      let reduceIdx := hash kv.key % nReduce
      match writers[reduceIdx]? with
      | none => panics
      | some writer =>
        let writer ← sendTo writer kv.key
        let writer ← sendTo writer kv.value
        return writers.set reduceIdx writer

/-- The buckets of a map task, of which `content` is the file's, if it can be read. -/
def mapTask (hash : Bytes → ℕ) (mapFn : MapFn) (nReduce : ℕ) (file : String)
    (content : Except String Bytes) (aux : Bytes) : Run (List Bytes) := do
  match content with
  | .error e => throw ("Failed to open input file " ++ file ++ ": " ++ e)
  | .ok content =>
    let items ← mapFn ⟨file.toUTF8.toList, content⟩ aux
    items.foldlM (emit hash nReduce) (List.replicate nReduce [])

/-- `WorkerState::data`. -/
structure WorkerState where
  data : ℕ → Option (ℕ × ℕ → Option Bytes)

/-- The end of `Worker::map`: the buckets are stored under the task and their index. -/
def WorkerState.insertAll (w : WorkerState) (jobId task : ℕ) (buckets : List Bytes) : WorkerState where
  data := Function.update w.data jobId (some fun at' =>
    if at'.1 = task ∧ at'.2 < buckets.length then buckets[at'.2]?
    else ((w.data jobId).getD fun _ => none) at')

/-- `Worker::map`. -/
def WorkerState.map (w : WorkerState) (hash : Bytes → ℕ) (mapFn : MapFn) (jobId task nReduce : ℕ)
    (file : String) (content : Except String Bytes) (aux : Bytes) : Run WorkerState := do
  let buckets ← mapTask hash mapFn nReduce file content aux
  return w.insertAll jobId task buckets

/-- `remove_job`. -/
def WorkerState.removeJob (w : WorkerState) (jobId : ℕ) : WorkerState where
  data := Function.update w.data jobId none

/-- `WorkerState::get_data`. -/
def WorkerState.getData (w : WorkerState) (jobId mapTask reduceTask : ℕ) : Option Bytes := do
  let taskMap ← w.data jobId
  taskMap (mapTask, reduceTask)

/-- `read_map`. -/
def WorkerState.readMap (w : WorkerState) (jobId mapTask reduceTask : ℕ) : Except String Bytes :=
  match w.getData jobId mapTask reduceTask with
  | none => .error "worker does not have data for the given task"
  | some data => .ok data

/-! ### `Worker::reduce` -/

/-- What `reduce` leaves: a message of an error after which it is tried again, or the content
of its output file. -/
inductive Reduced
  | retry (msg : String)
  | file (content : Bytes)

/-- The pairs in a buffer, for at most so many turns of the loop. -/
def readPairs : ℕ → Prog Bytes (Except String (List KeyValue))
  | 0 => halt
  | turns + 1 => do
    let key ← next
    match key with
    | none => return .ok []
    | some key =>
      let value ← next
      match value with
      | none => return .error "Found key without a value"
      | some value =>
        let rest ← readPairs turns
        return rest.map (⟨key, value⟩ :: ·)

/-- The pairs of a bucket. -/
def bucketPairs (buf : Bytes) : Run (List KeyValue) :=
  match (readPairs (buf.length + 1)).run buf with
  | none => panics
  | some (.error e, _) => throw e
  | some (.ok kvs, _) => pure kvs

/-- `MapTaskAssignment`. -/
structure MapTaskAssignment where
  workerId : ℕ
  task : ℕ

/-- The loop over the map tasks; `read` is `read_map_from`. -/
def gather (read : MapTaskAssignment → Except String Bytes) :
    List MapTaskAssignment → Run (String ⊕ List KeyValue)
  | [] => pure (.inr [])
  | task :: tasks =>
    match read task with
    | .error e => pure (.inl e)
    | .ok buf => do
      let kvs ← bucketPairs buf
      let rest ← gather read tasks
      return rest.map id (kvs ++ ·)

/-- The loop over the groups. -/
def writeGroups (reduceFn : ReduceFn) (aux : Bytes) : List (Bytes × List Bytes) → Bytes → Run Bytes
  | [], buf => pure buf
  | (key, group) :: gs, buf => do
    let output ← reduceFn key group aux
    let buf ← sendTo buf key
    let buf ← sendTo buf output
    writeGroups reduceFn aux gs buf

/-- `Worker::reduce`. -/
def reduce (keySort : KeySort) (reduceFn : ReduceFn) (read : MapTaskAssignment → Except String Bytes)
    (mapTasks : List MapTaskAssignment) (aux : Bytes) : Run Reduced := do
  let gathered ← gather read mapTasks
  match gathered with
  | .inl msg => return .retry msg
  | .inr intermediate =>
    let sorted := keySort.sort intermediate
    let buf ← writeGroups reduceFn aux (groups (sorted.map KeyValue.pair)) []
    return .file buf

/-! ### Packets of pairs -/

/-- The packets that pairs are sent as. -/
def packets (kvs : List KeyValue) : List Bytes := kvs.flatMap fun kv => [kv.key, kv.value]

/-- The bytes that pairs are sent as. -/
def frames (kvs : List KeyValue) : Bytes := ((packets kvs).map frame).flatten

/-- Keys and values that can be sent. -/
def Sendable (kv : KeyValue) : Prop := kv.key.length ≤ u32Max ∧ kv.value.length ≤ u32Max

section Packets

variable {kv : KeyValue} {kvs kvs' : List KeyValue} {buf buf' p : Bytes}

theorem frames_cons : frames (kv :: kvs) = frame kv.key ++ (frame kv.value ++ frames kvs) := rfl

theorem frames_append : frames (kvs ++ kvs') = frames kvs ++ frames kvs' := by
  unfold frames packets
  rw [List.flatMap_append, List.map_append, List.flatten_append]

theorem written_packets_iff :
    written (packets kvs) = some buf ↔ (∀ kv ∈ kvs, Sendable kv) ∧ frames kvs = buf := by
  rw [written_eq_some_iff]
  refine and_congr_left fun _ => ?_
  unfold packets Sendable
  simp only [List.mem_flatMap, List.mem_cons, List.not_mem_nil, or_false, forall_exists_index, and_imp]
  constructor
  · exact fun h kv hkv => ⟨h _ kv hkv (.inl rfl), h _ kv hkv (.inr rfl)⟩
  · rintro h p kv hkv (rfl | rfl)
    · exact (h kv hkv).1
    · exact (h kv hkv).2

theorem ok_sendTo : Ok (sendTo buf p) buf' ↔ p.length ≤ u32Max ∧ buf' = buf ++ frame p := by
  unfold sendTo
  rw [run_send]
  by_cases hp : p.length ≤ u32Max
  · rw [if_pos hp, and_iff_right hp]
    exact ok_pure.trans eq_comm
  · rw [if_neg hp]
    exact iff_of_false not_ok_panics fun h => hp h.1

/-- Sending a pair. -/
theorem ok_sendPair {α : Type} {f : Bytes → Run α} {a : α} :
    (∃ b, Ok (sendTo buf kv.key) b ∧ ∃ b', Ok (sendTo b kv.value) b' ∧ Ok (f b') a) ↔
      Sendable kv ∧ Ok (f (buf ++ frames [kv])) a := by
  have hframes : buf ++ frames [kv] = buf ++ frame kv.key ++ frame kv.value := by
    rw [frames_cons, frames, packets, List.flatMap_nil, List.map_nil, List.flatten_nil, List.append_nil,
      List.append_assoc]
  constructor
  · rintro ⟨b, hb, b', hb', hf⟩
    obtain ⟨hkey, rfl⟩ := ok_sendTo.1 hb
    obtain ⟨hvalue, rfl⟩ := ok_sendTo.1 hb'
    exact ⟨⟨hkey, hvalue⟩, hframes ▸ hf⟩
  · rintro ⟨⟨hkey, hvalue⟩, hf⟩
    exact ⟨_, ok_sendTo.2 ⟨hkey, rfl⟩, _, ok_sendTo.2 ⟨hvalue, rfl⟩, hframes ▸ hf⟩

/-- **The pairs of a bucket** are read as they were sent. -/
theorem run_readPairs {turns : ℕ} (hlen : ∀ kv ∈ kvs, Sendable kv)
    (hturns : (frames kvs).length < turns) :
    ∃ rest, (readPairs turns).run (frames kvs) = some (.ok kvs, rest) := by
  induction kvs generalizing turns with
  | nil =>
    obtain ⟨turns, rfl⟩ := Nat.exists_eq_succ_of_ne_zero (Nat.ne_zero_of_lt hturns)
    exact ⟨[], rfl⟩
  | cons kv kvs ih =>
    obtain ⟨turns, rfl⟩ := Nat.exists_eq_succ_of_ne_zero (Nat.ne_zero_of_lt hturns)
    obtain ⟨⟨hkey, hvalue⟩, hrest⟩ := List.forall_mem_cons.1 hlen
    rw [frames_cons, List.length_append, List.length_append, length_frame, length_frame] at hturns
    have hturns' : (frames kvs).length < turns := by omega
    obtain ⟨rest, hrun⟩ := ih hrest hturns'
    refine ⟨rest, ?_⟩
    rw [frames_cons]
    unfold readPairs
    rw [run_bind_of_run (run_next_some.2 ⟨hkey, rfl⟩)]
    dsimp only
    rw [run_bind_of_run (run_next_some.2 ⟨hvalue, rfl⟩)]
    dsimp only
    rw [run_bind_of_run hrun]
    rfl

theorem ok_bucketPairs (hlen : ∀ kv ∈ kvs, Sendable kv) : Ok (bucketPairs (frames kvs)) kvs := by
  obtain ⟨rest, hrun⟩ := run_readPairs hlen (Nat.lt_succ_self _)
  unfold bucketPairs
  rw [hrun]
  rfl

end Packets

/-! ### Buckets -/

/-- The pairs that go to a reduce task. -/
def bucketOf (hash : Bytes → ℕ) (nReduce i : ℕ) (kvs : List KeyValue) : List KeyValue :=
  kvs.filter fun kv => hash kv.key % nReduce = i

section Buckets

variable {hash : Bytes → ℕ} {n i : ℕ} {kv : KeyValue} {kvs : List KeyValue} {ws ws' : List Bytes}

/-- A pair goes into one bucket. -/
theorem ok_emit (h : Ok (emit hash n ws (.ok kv)) ws') (i : ℕ) :
    Sendable kv ∧ ws'[i]? = ws[i]?.map (· ++ frames (bucketOf hash n i [kv])) := by
  unfold emit at h
  dsimp only at h
  by_cases hn : n = 0
  · rw [if_pos hn] at h
    exact absurd h not_ok_panics
  rw [if_neg hn] at h
  cases hwriter : ws[hash kv.key % n]? with
  | none =>
    rw [hwriter] at h
    exact absurd h not_ok_panics
  | some writer =>
    rw [hwriter] at h
    obtain ⟨b, hkey, h⟩ := ok_bind.1 h
    obtain ⟨b', hvalue, h⟩ := ok_bind.1 h
    obtain ⟨hsend, hset⟩ := ok_sendPair (f := fun b => pure (ws.set (hash kv.key % n) b)).1
      ⟨b, hkey, b', hvalue, h⟩
    obtain rfl := ok_pure.1 hset
    refine ⟨hsend, ?_⟩
    by_cases hi : hash kv.key % n = i
    · have hbucket : bucketOf hash n i [kv] = [kv] := List.filter_cons_of_pos (decide_eq_true hi)
      rw [hbucket, ← hi, List.getElem?_set_self (List.getElem?_eq_some_iff.1 hwriter).1, hwriter]
      rfl
    · have hbucket : bucketOf hash n i [kv] = [] := List.filter_cons_of_neg (by simpa using hi)
      rw [hbucket, List.getElem?_set_ne hi]
      have hid : (fun b : Bytes => b ++ frames []) = id := funext fun b => List.append_nil b
      rw [hid, Option.map_id]
      rfl

/-- **The buckets of a map task**: bucket `i` has the pairs whose keys hash to `i`, in order. -/
theorem ok_foldlM_emit {items : List (Except String KeyValue)}
    (h : Ok (items.foldlM (emit hash n) ws) ws') :
    ∃ kvs, items = kvs.map .ok ∧ (∀ kv ∈ kvs, Sendable kv) ∧
      ∀ i, ws'[i]? = ws[i]?.map (· ++ frames (bucketOf hash n i kvs)) := by
  induction items generalizing ws with
  | nil =>
    rw [List.foldlM_nil] at h
    cases ok_pure.1 h
    refine ⟨[], rfl, fun kv hkv => absurd hkv List.not_mem_nil, fun i => ?_⟩
    simp [bucketOf, frames, packets]
  | cons item items ih =>
    rw [List.foldlM_cons] at h
    obtain ⟨ws₁, hemit, hrest⟩ := ok_bind.1 h
    cases item with
    | error e => exact absurd hemit not_ok_throw
    | ok kv =>
      obtain ⟨kvs, rfl, hsend, hws⟩ := ih hrest
      refine ⟨kv :: kvs, rfl, List.forall_mem_cons.2 ⟨(ok_emit hemit 0).1, hsend⟩, fun i => ?_⟩
      rw [hws i, (ok_emit hemit i).2, Option.map_map]
      refine congrArg (Option.map · _) (funext fun b => ?_)
      show b ++ frames (bucketOf hash n i [kv]) ++ _ = b ++ _
      rw [List.append_assoc, ← frames_append]
      unfold bucketOf
      rw [← List.filter_append, List.singleton_append]

end Buckets

/-! ### Jobs -/

/-- A job: its functions, and the files of its map tasks with their contents. -/
structure Job where
  jobId : ℕ
  hash : Bytes → ℕ
  nReduce : ℕ
  mapFn : MapFn
  reduceFn : ReduceFn
  aux : Bytes
  files : List (String × Bytes)

namespace Job

/-- What the map task of a file emits. -/
def TaskEmits (J : Job) (file : String × Bytes) (kvs : List KeyValue) : Prop :=
  Ok (J.mapFn ⟨file.1.toUTF8.toList, file.2⟩ J.aux) (kvs.map .ok)

/-- **What the map tasks emit**, all together. -/
def Emits (J : Job) (kvs : List KeyValue) : Prop :=
  ∃ part : ℕ → List KeyValue, (∀ t file, J.files[t]? = some file → J.TaskEmits file (part t)) ∧
    kvs = (List.range J.files.length).flatMap part

/-- A worker has the buckets of a map task. -/
def Stored (J : Job) (w : WorkerState) (task : ℕ) : Prop :=
  ∃ file buckets, J.files[task]? = some file ∧
    Ok (mapTask J.hash J.mapFn J.nReduce file.1 (.ok file.2) J.aux) buckets ∧
    ∀ i < J.nReduce, w.getData J.jobId task i = buckets[i]?

/-- **The output file of a reduce task**: its keys increase, they are the emitted ones that hash
to the task, and the output of a key is that of `reduce_fn` for all values emitted for it. -/
structure OutFile (J : Job) (emitted : List KeyValue) (i : ℕ) (content : Bytes)
    (kvs : List KeyValue) : Prop where
  content : collect content = some (packets kvs)
  increasing : (keys kvs).Pairwise (· < ·)
  key : ∀ k, k ∈ keys kvs ↔ k ∈ keys emitted ∧ J.hash k % J.nReduce = i
  value : ∀ kv ∈ kvs, ∃ values, values.Perm (KeyValue.valuesOf kv.key emitted) ∧
    Ok (J.reduceFn kv.key values J.aux) kv.value

end Job

/-- **The reduce tasks of a job**, each of which reads its bucket of every map task once. -/
structure JobRun (J : Job) where
  keySort : ℕ → KeySort
  mapTasks : ℕ → List MapTaskAssignment
  read : ℕ → MapTaskAssignment → Except String Bytes
  out : ℕ → Bytes
  tasks : ∀ i < J.nReduce,
    ((mapTasks i).map MapTaskAssignment.task).Perm (List.range J.files.length)
  stored : ∀ i < J.nReduce, ∀ a ∈ mapTasks i, ∃ w, J.Stored w a.task ∧
    read i a = w.readMap J.jobId a.task i
  reduced : ∀ i < J.nReduce,
    Ok (reduce (keySort i) J.reduceFn (read i) (mapTasks i) J.aux) (.file (out i))

/-! ### Storing -/

section Stored

variable {J : Job} {w w' : WorkerState} {file : String × Bytes} {task task' jobId' : ℕ}
  {buckets : List Bytes}

/-- There is a bucket for each reduce task, with the pairs that hash to it. -/
theorem Job.buckets_eq (h : Ok (mapTask J.hash J.mapFn J.nReduce file.1 (.ok file.2) J.aux) buckets) :
    ∃ kvs, J.TaskEmits file kvs ∧ ∀ i < J.nReduce,
      ∃ b, buckets[i]? = some b ∧ written (packets (bucketOf J.hash J.nReduce i kvs)) = some b := by
  unfold mapTask at h
  dsimp only at h
  obtain ⟨items, hitems, hfold⟩ := ok_bind.1 h
  obtain ⟨kvs, rfl, hsend, hbuckets⟩ := ok_foldlM_emit hfold
  refine ⟨kvs, hitems, fun i hi => ⟨_, ?_, written_packets_iff.2 ⟨fun kv hkv => ?_, rfl⟩⟩⟩
  · rw [hbuckets i, List.getElem?_replicate, if_pos hi, Option.map_some, List.nil_append]
  · exact hsend kv (List.mem_of_mem_filter hkv)

/-- **`Worker::map` stores the buckets.** -/
theorem Job.stored_map (hfile : J.files[task]? = some file)
    (h : Ok (w.map J.hash J.mapFn J.jobId task J.nReduce file.1 (.ok file.2) J.aux) w') :
    J.Stored w' task := by
  obtain ⟨buckets, hmap, hpure⟩ := ok_bind.1 h
  obtain rfl := ok_pure.1 hpure
  obtain ⟨kvs, -, hbuckets⟩ := J.buckets_eq hmap
  refine ⟨file, buckets, hfile, hmap, fun i hi => ?_⟩
  obtain ⟨b, hb, -⟩ := hbuckets i hi
  have hdata : (w.insertAll J.jobId task buckets).data J.jobId = some fun at' =>
      if at'.1 = task ∧ at'.2 < buckets.length then buckets[at'.2]?
      else ((w.data J.jobId).getD fun _ => none) at' := Function.update_self ..
  unfold WorkerState.getData
  rw [hdata]
  exact if_pos ⟨rfl, (List.getElem?_eq_some_iff.1 hb).1⟩

/-- Map tasks of other jobs, and other ones of the job, leave them. -/
theorem Job.Stored.insertAll (h : J.Stored w task) (hne : jobId' = J.jobId → task' ≠ task)
    (buckets' : List Bytes) : J.Stored (w.insertAll jobId' task' buckets') task := by
  obtain ⟨file, buckets, hfile, hmap, hdata⟩ := h
  refine ⟨file, buckets, hfile, hmap, fun i hi => (?_ : _ = _).trans (hdata i hi)⟩
  unfold WorkerState.getData WorkerState.insertAll
  dsimp only
  by_cases hjob : J.jobId = jobId'
  · subst hjob
    rw [Function.update_self]
    show (if task = task' ∧ _ then _ else _) = _
    rw [if_neg fun h => hne rfl h.1.symm]
    cases w.data J.jobId <;> rfl
  · rw [Function.update_of_ne hjob]

theorem Job.Stored.removeJob (h : J.Stored w task) (hne : jobId' ≠ J.jobId) :
    J.Stored (w.removeJob jobId') task := by
  obtain ⟨file, buckets, hfile, hmap, hdata⟩ := h
  refine ⟨file, buckets, hfile, hmap, fun i hi => (?_ : _ = _).trans (hdata i hi)⟩
  unfold WorkerState.getData WorkerState.removeJob
  dsimp only
  rw [Function.update_of_ne hne.symm]

end Stored

/-! ### Reducing -/

section Reduce

variable {J : Job} {kvs : List KeyValue} {read : MapTaskAssignment → Except String Bytes}
  {mapTasks : List MapTaskAssignment} {reduceFn : ReduceFn} {aux buf buf' : Bytes}
  {gs : List (Bytes × List Bytes)}

/-- The pairs that a reduce task reads. -/
theorem ok_gather {part : MapTaskAssignment → List KeyValue}
    (h : ∀ a ∈ mapTasks, ∃ b, read a = .ok b ∧ written (packets (part a)) = some b) :
    Ok (gather read mapTasks) (.inr (mapTasks.flatMap part)) := by
  induction mapTasks with
  | nil => rfl
  | cons a mapTasks ih =>
    obtain ⟨⟨b, hread, hwritten⟩, hrest⟩ := List.forall_mem_cons.1 h
    obtain ⟨hsend, rfl⟩ := written_packets_iff.1 hwritten
    unfold gather
    rw [hread]
    exact ok_bind.2 ⟨_, ok_bucketPairs hsend, ok_bind.2 ⟨_, ih hrest, rfl⟩⟩

/-- What a reduce task writes: for each group, its key and the output for it. -/
theorem ok_writeGroups (h : Ok (writeGroups reduceFn aux gs buf) buf') :
    ∃ out : List KeyValue, keys out = gs.map Prod.fst ∧
      (∀ kv ∈ out, ∃ group, (kv.key, group) ∈ gs ∧ Ok (reduceFn kv.key group aux) kv.value) ∧
      (∀ kv ∈ out, Sendable kv) ∧ buf' = buf ++ frames out := by
  induction gs generalizing buf with
  | nil =>
    obtain rfl := ok_pure.1 h
    exact ⟨[], rfl, fun kv hkv => absurd hkv List.not_mem_nil, fun kv hkv => absurd hkv List.not_mem_nil,
      (List.append_nil buf).symm⟩
  | cons g gs ih =>
    obtain ⟨key, group⟩ := g
    obtain ⟨output, houtput, h⟩ := ok_bind.1 h
    obtain ⟨b, hkey, h⟩ := ok_bind.1 h
    obtain ⟨b', hvalue, h⟩ := ok_bind.1 h
    have hpair : Sendable ⟨key, output⟩ ∧ Ok (writeGroups reduceFn aux gs _) _ :=
      ok_sendPair.1 ⟨b, hkey, b', hvalue, h⟩
    obtain ⟨hsend, hrest⟩ := hpair
    obtain ⟨out, hkeys, hout, hall, rfl⟩ := ih hrest
    refine ⟨⟨key, output⟩ :: out, congrArg (key :: ·) hkeys, List.forall_mem_cons.2 ⟨?_, fun kv hkv => ?_⟩,
      List.forall_mem_cons.2 ⟨hsend, hall⟩, ?_⟩
    · exact ⟨group, List.mem_cons_self, houtput⟩
    · obtain ⟨group', hmem, hok⟩ := hout kv hkv
      exact ⟨group', List.mem_cons_of_mem _ hmem, hok⟩
    · rw [List.append_assoc, ← frames_append, List.singleton_append]

end Reduce

namespace JobRun

variable {J : Job} (R : JobRun J) {emitted : List KeyValue} {i : ℕ}
include R

/-- The map tasks emitted something. -/
theorem emits (hn : 0 < J.nReduce) : ∃ emitted, J.Emits emitted := by
  have hpart : ∀ t : ℕ, ∃ kvs, ∀ file, J.files[t]? = some file → J.TaskEmits file kvs := by
    intro t
    by_cases ht : t < J.files.length
    · have hmem := (R.tasks 0 hn).mem_iff.2 (List.mem_range.2 ht)
      obtain ⟨a, ha, rfl⟩ := List.mem_map.1 hmem
      obtain ⟨w, ⟨file, buckets, hfile, hmap, -⟩, -⟩ := R.stored 0 hn a ha
      obtain ⟨kvs, hemits, -⟩ := J.buckets_eq hmap
      exact ⟨kvs, fun file' hfile' => Option.some.inj (hfile.symm.trans hfile') ▸ hemits⟩
    · exact ⟨[], fun file hfile => absurd (List.getElem?_eq_some_iff.1 hfile).1 ht⟩
  choose part hpart using hpart
  exact ⟨_, part, hpart, rfl⟩

/-- **The pairs that a reduce task reads** are those that were emitted and hash to it. -/
theorem gathers (hemits : J.Emits emitted) (hi : i < J.nReduce) :
    ∃ kvs, Ok (gather (R.read i) (R.mapTasks i)) (.inr kvs) ∧
      kvs.Perm (bucketOf J.hash J.nReduce i emitted) := by
  obtain ⟨part, hpart, rfl⟩ := hemits
  have hparts : ∀ a ∈ R.mapTasks i, ∃ b, R.read i a = .ok b ∧
      written (packets (bucketOf J.hash J.nReduce i (part a.task))) = some b := by
    intro a ha
    obtain ⟨w, ⟨file, buckets, hfile, hmap, hdata⟩, hread⟩ := R.stored i hi a ha
    obtain ⟨kvs, htask, hbuckets⟩ := J.buckets_eq hmap
    obtain ⟨b, hb, hwritten⟩ := hbuckets i hi
    have hkvs : kvs = part a.task :=
      List.map_injective_iff.2 (fun _ _ => Except.ok.inj) (htask.unique (hpart a.task file hfile))
    refine ⟨b, ?_, hkvs ▸ hwritten⟩
    rw [hread, WorkerState.readMap, hdata i hi, hb]
  have hperm := (R.tasks i hi).flatMap_right fun t => bucketOf J.hash J.nReduce i (part t)
  rw [List.flatMap_map] at hperm
  refine ⟨_, ok_gather hparts, ?_⟩
  unfold bucketOf at hperm ⊢
  rwa [List.filter_flatMap]

/-- **The output file of a reduce task.** -/
theorem outFile (hemits : J.Emits emitted) (hi : i < J.nReduce) :
    ∃ kvs, J.OutFile emitted i (R.out i) kvs := by
  obtain ⟨kvs, hgather, hperm⟩ := R.gathers hemits hi
  obtain ⟨gathered, hgather', h⟩ := ok_bind.1 (R.reduced i hi)
  obtain rfl := hgather.unique hgather'
  obtain ⟨buf, hwrite, hpure⟩ := ok_bind.1 h
  have hout : buf = R.out i := Reduced.file.inj (ok_pure.1 hpure)
  obtain ⟨out, hkeys, hvalues, hsend, hbuf⟩ := ok_writeGroups hwrite
  rw [hout, List.nil_append] at hbuf
  set l := ((R.keySort i).sort kvs).map KeyValue.pair with hl
  have hsorted : SortedByKey l := List.pairwise_map.2 ((R.keySort i).sorted kvs)
  have hpairs : l.Perm ((bucketOf J.hash J.nReduce i emitted).map KeyValue.pair) :=
    (((R.keySort i).perm kvs).trans hperm).map _
  have hkey : ∀ k, k ∈ keys out ↔ k ∈ keys emitted ∧ J.hash k % J.nReduce = i := by
    intro k
    rw [hkeys, mem_keys_groups, (hpairs.map Prod.fst).mem_iff, List.map_map]
    unfold bucketOf keys
    simp only [List.mem_map, List.mem_filter, decide_eq_true_eq, Function.comp_apply, KeyValue.pair]
    constructor
    · rintro ⟨kv, ⟨hkv, hhash⟩, rfl⟩
      exact ⟨⟨kv, hkv, rfl⟩, hhash⟩
    · rintro ⟨⟨kv, hkv, rfl⟩, hhash⟩
      exact ⟨kv, ⟨hkv, hhash⟩, rfl⟩
  refine ⟨out, collect_eq_some_iff.2 (written_packets_iff.2 ⟨hsend, hbuf.symm⟩), ?_, hkey,
    fun kv hkv => ?_⟩
  · rw [hkeys, List.pairwise_map]
    exact groups_sorted hsorted
  · obtain ⟨group, hgroup, hreduce⟩ := hvalues kv hkv
    obtain ⟨-, rfl⟩ := (mem_groups hsorted).1 hgroup
    have hhash := ((hkey kv.key).1 (List.mem_map_of_mem hkv)).2
    refine ⟨_, (valuesOf_perm hpairs).trans ?_, hreduce⟩
    have hfilter : (bucketOf J.hash J.nReduce i emitted).map KeyValue.pair =
        (emitted.map KeyValue.pair).filter fun a => decide (J.hash a.1 % J.nReduce = i) := by
      rw [List.filter_map]
      rfl
    rw [hfilter]
    have hvalues := valuesOf_filter (l := emitted.map KeyValue.pair)
      (p := fun k => decide (J.hash k % J.nReduce = i)) (decide_eq_true hhash)
    exact (List.Perm.of_eq hvalues :)

/-- **Shuffle is a group-by**: every emitted key is in one output file, the one that it hashes
to, and there once, with the output of `reduce_fn` for all values emitted for it. -/
theorem shuffle (hn : 0 < J.nReduce) : ∃ emitted, J.Emits emitted ∧
    ∀ i < J.nReduce, ∃ kvs, J.OutFile emitted i (R.out i) kvs := by
  obtain ⟨emitted, hemits⟩ := R.emits hn
  exact ⟨emitted, hemits, fun i hi => R.outFile hemits hi⟩

end JobRun

/-- A sort by insertion is a sort. -/
def KeySort.insertion : KeySort where
  sort := List.insertionSort fun a b => a.key ≤ b.key
  perm := List.perm_insertionSort _
  sorted l := by
    have : Std.Total fun a b : KeyValue => a.key ≤ b.key := ⟨fun a b => le_total a.key b.key⟩
    have : IsTrans KeyValue fun a b => a.key ≤ b.key := ⟨fun _ _ _ => le_trans⟩
    exact List.pairwise_insertionSort _ l

/-- A job that emits the bytes of its two files as keys, and puts the odd ones in the second of two
output files. -/
def bytesJob : Job where
  jobId := 0
  hash k := (k.headD 0).toNat
  nReduce := 2
  mapFn kv _ := pure (kv.value.map fun b => .ok ⟨[b], [1]⟩)
  reduceFn _ values _ := pure values.flatten
  aux := []
  files := [("a", [8, 7]), ("b", [8])]

/-- What the map tasks leave in the buckets of the reduce tasks. -/
def bytesBuckets (task : ℕ) : List Bytes :=
  if task = 0 then [frame [8] ++ frame [1], frame [7] ++ frame [1]] else [frame [8] ++ frame [1], []]

/-- The workers of the two map tasks. -/
def bytesWorker (task : ℕ) : WorkerState :=
  WorkerState.insertAll ⟨fun _ => none⟩ 0 task (bytesBuckets task)

/-- The first reduce task reads the second map task's bucket first. -/
def bytesRun : JobRun bytesJob where
  keySort _ := .insertion
  mapTasks i := if i = 0 then [⟨1, 1⟩, ⟨0, 0⟩] else [⟨0, 0⟩, ⟨1, 1⟩]
  read i a := (bytesWorker a.task).readMap 0 a.task i
  out i := if i = 0 then frame [8] ++ frame [1, 1] else frame [7] ++ frame [1]
  tasks i _ := by
    split_ifs
    · exact List.Perm.swap 0 1 []
    · exact List.Perm.refl _
  stored i hi a ha := by
    have htask : a.task = 0 ∨ a.task = 1 := by
      split_ifs at ha <;> rcases List.mem_pair.1 ha with rfl | rfl <;> simp
    rcases htask with h | h <;> rw [h]
    · refine ⟨_, ⟨("a", [8, 7]), bytesBuckets 0, rfl, rfl, fun i hi => ?_⟩, rfl⟩
      match i, hi with
      | 0, _ => rfl
      | 1, _ => rfl
    · refine ⟨_, ⟨("b", [8]), bytesBuckets 1, rfl, rfl, fun i hi => ?_⟩, rfl⟩
      match i, hi with
      | 0, _ => rfl
      | 1, _ => rfl
  reduced i hi := by
    match i, hi with
    | 0, _ => rfl
    | 1, _ => rfl

/-- Both output files hold the groups of the pairs of both map tasks. -/
theorem JobRun.shuffle_bytes : ∃ emitted, bytesJob.Emits emitted ∧
    ∀ i < bytesJob.nReduce, ∃ kvs, bytesJob.OutFile emitted i (bytesRun.out i) kvs :=
  bytesRun.shuffle Nat.two_pos

end MapReduce
end CS162

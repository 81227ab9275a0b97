/-
# The output of a job

`hw-map-reduce-rs/src/lib.rs`, lines 112-151: `App`, and what its `process_output` makes of the
output files of a job, one after the other.  The files are read as what they are, packets of pairs;
the reader that a client has for them is `CS162.MapReduce.Postprocess`.

Together the files have every emitted key once (`JobRun.merged`), wherever it hashes to.  So two
runs, with other numbers of reduce tasks, other hash functions and other orders, have the same
pairs in some order, if `reduce_fn` does not depend on the order of its values (`Merged.perm`).
-/

import CS162.Basis.Utf8
import CS162.MapReduce.Worker

namespace CS162
namespace MapReduce

open CS162.Basis

/-- `App`. -/
structure App where
  mapFn : MapFn
  reduceFn : ReduceFn
  processOutputFn : List KeyValue → Run Text

/-- What runs of one job on the same files may differ in. -/
structure Setup where
  jobId : ℕ
  hash : Bytes → ℕ
  nReduce : ℕ

/-- A job of an application. -/
def App.job (A : App) (S : Setup) (aux : Bytes) (files : List (String × Bytes)) : Job where
  jobId := S.jobId
  hash := S.hash
  nReduce := S.nReduce
  mapFn := A.mapFn
  reduceFn := A.reduceFn
  aux := aux
  files := files

/-! ### What is made of output files -/

/-- Packets as pairs.  A key at the end, without a value, is left out. -/
def pairUp : List Bytes → List KeyValue
  | key :: value :: ps => ⟨key, value⟩ :: pairUp ps
  | _ => []

/-- The pairs of an output file. -/
def filePairs (content : Bytes) : Run (List KeyValue) :=
  match collect content with
  | none => panics
  | some ps => pure (pairUp ps)

/-- `process_output` of output files with these contents. -/
def processOutputs (processOutputFn : List KeyValue → Run Text) (contents : List Bytes) : Run Text := do
  let intermediate ← contents.mapM filePairs
  processOutputFn intermediate.flatten

/-- **What a run of a job prints.** -/
def JobRun.result {A : App} {S : Setup} {aux : Bytes} {files : List (String × Bytes)}
    (R : JobRun (A.job S aux files)) : Run Text :=
  processOutputs A.processOutputFn ((List.range S.nReduce).map R.out)

theorem pairUp_packets (kvs : List KeyValue) : pairUp (packets kvs) = kvs := by
  induction kvs with
  | nil => rfl
  | cons kv kvs ih => exact congrArg (kv :: ·) ih

/-- A loop over what is all right. -/
theorem mapM_ok {α β : Type} {f : α → Run β} {g : α → β} {l : List α} (h : ∀ a ∈ l, f a = pure (g a)) :
    l.mapM f = pure (l.map g) := by
  induction l with
  | nil => rfl
  | cons a l ih =>
    obtain ⟨ha, hl⟩ := List.forall_mem_cons.1 h
    rw [List.mapM_cons, ha, pure_bind, ih hl, pure_bind]
    rfl

/-- A loop that succeeds, succeeds on each element. -/
theorem forall₂_of_mapM {α β : Type} {f : α → Run β} {l : List α} {l' : List β}
    (h : Ok (l.mapM f) l') : List.Forall₂ (fun a b => Ok (f a) b) l l' := by
  induction l generalizing l' with
  | nil =>
    obtain rfl := ok_pure.1 h
    exact .nil
  | cons a l ih =>
    rw [List.mapM_cons] at h
    obtain ⟨b, hb, h⟩ := ok_bind.1 h
    obtain ⟨bs, hbs, h⟩ := ok_bind.1 h
    obtain rfl := ok_pure.1 h
    exact .cons hb (ih hbs)

theorem ok_iff {α : Type} {x : Run α} {a : α} : Ok x a ↔ x = pure a := Iff.rfl

/-! ### All output files -/

/-- **The pairs of all output files**: every emitted key once, with the output of `reduce_fn` for
all values emitted for it. -/
structure Job.Merged (J : Job) (emitted kvs : List KeyValue) : Prop where
  nodup : (keys kvs).Nodup
  key : ∀ k, k ∈ keys kvs ↔ k ∈ keys emitted
  value : ∀ kv ∈ kvs, ∃ values, values.Perm (KeyValue.valuesOf kv.key emitted) ∧
    Ok (J.reduceFn kv.key values J.aux) kv.value

/-- What the map tasks emit is what each of the files gives, one after the other. -/
theorem Job.Emits.exists_parts {J : Job} {emitted : List KeyValue} (h : J.Emits emitted) :
    ∃ parts, List.Forall₂ J.TaskEmits J.files parts ∧ emitted = parts.flatten := by
  obtain ⟨part, hpart, rfl⟩ := h
  refine ⟨(List.range J.files.length).map part, ?_, List.flatMap_def ..⟩
  refine List.forall₂_iff_get.2 ⟨by rw [List.length_map, List.length_range], fun i hi hi' => ?_⟩
  rw [List.get_eq_getElem, List.get_eq_getElem, List.getElem_map, List.getElem_range]
  exact hpart i _ (List.getElem?_eq_getElem hi)

theorem keys_flatMap {l : List ℕ} {f : ℕ → List KeyValue} :
    keys (l.flatMap f) = l.flatMap fun i => keys (f i) := List.map_flatMap

/-- The output files together. -/
theorem JobRun.merged {J : Job} (R : JobRun J) (hn : 0 < J.nReduce) {emitted : List KeyValue}
    (hemits : J.Emits emitted) : ∃ files : ℕ → List KeyValue,
      (∀ i < J.nReduce, filePairs (R.out i) = pure (files i)) ∧
      J.Merged emitted ((List.range J.nReduce).flatMap files) := by
  have hfile : ∀ i, ∃ kvs, i < J.nReduce → J.OutFile emitted i (R.out i) kvs := by
    intro i
    by_cases hi : i < J.nReduce
    · obtain ⟨kvs, hkvs⟩ := R.outFile hemits hi
      exact ⟨kvs, fun _ => hkvs⟩
    · exact ⟨[], fun h => absurd h hi⟩
  choose files hfiles using hfile
  refine ⟨files, fun i hi => ?_, ?_, fun k => ?_, fun kv hkv => ?_⟩
  · rw [filePairs, (hfiles i hi).content]
    exact congrArg pure (pairUp_packets _)
  · rw [keys_flatMap, List.nodup_flatMap]
    constructor
    · exact fun i hi => ((hfiles i (List.mem_range.1 hi)).increasing).imp ne_of_lt
    · refine List.Pairwise.imp_of_mem (fun {i j} hi hj hij => ?_) (List.nodup_range (n := J.nReduce))
      intro k hki hkj
      have hi' := (((hfiles i (List.mem_range.1 hi)).key k).1 hki).2
      have hj' := (((hfiles j (List.mem_range.1 hj)).key k).1 hkj).2
      exact hij (hi'.symm.trans hj')
  · rw [keys_flatMap, List.mem_flatMap]
    constructor
    · rintro ⟨i, hi, hk⟩
      exact (((hfiles i (List.mem_range.1 hi)).key k).1 hk).1
    · intro hk
      have hlt := Nat.mod_lt (J.hash k) hn
      exact ⟨J.hash k % J.nReduce, List.mem_range.2 hlt, ((hfiles _ hlt).key k).2 ⟨hk, rfl⟩⟩
  · obtain ⟨i, hi, hkv⟩ := List.mem_flatMap.1 hkv
    exact (hfiles i (List.mem_range.1 hi)).value kv hkv

section Runs

variable {A : App} {S S' : Setup} {aux : Bytes} {files : List (String × Bytes)}
  {emitted kvs kvs' : List KeyValue}

/-- What is printed is what `process_output` makes of the pairs of all files. -/
theorem JobRun.result_eq (R : JobRun (A.job S aux files)) (hn : 0 < S.nReduce)
    (hemits : (A.job S aux files).Emits emitted) :
    ∃ kvs, (A.job S aux files).Merged emitted kvs ∧ R.result = A.processOutputFn kvs := by
  obtain ⟨out, hout, hmerged⟩ := R.merged hn hemits
  refine ⟨_, hmerged, ?_⟩
  have hmap : ((List.range S.nReduce).map R.out).mapM filePairs = pure ((List.range S.nReduce).map out) := by
    rw [List.mapM_map]
    exact mapM_ok fun i hi => hout i (List.mem_range.1 hi)
  unfold JobRun.result processOutputs
  rw [hmap, pure_bind, ← List.flatMap_def]
  rfl

/-- **The pairs of two runs** are the same, in some order, where the output of `reduce_fn` does not
depend on the order of the values. -/
theorem Job.Merged.perm (h : (A.job S aux files).Merged emitted kvs)
    (h' : (A.job S' aux files).Merged emitted kvs')
    (hreduce : ∀ k values values', values.Perm (KeyValue.valuesOf k emitted) →
      values'.Perm (KeyValue.valuesOf k emitted) → A.reduceFn k values aux = A.reduceFn k values' aux) :
    kvs.Perm kvs' := by
  have hsub : ∀ {S₁ S₂ : Setup} {l l' : List KeyValue}, (A.job S₁ aux files).Merged emitted l →
      (A.job S₂ aux files).Merged emitted l' → ∀ kv ∈ l, kv ∈ l' := by
    intro S₁ S₂ l l' hl hl' kv hkv
    obtain ⟨kv', hkv', hkey⟩ := List.mem_map.1
      ((hl'.key kv.key).2 ((hl.key kv.key).1 (List.mem_map_of_mem hkv)))
    obtain ⟨values, hperm, hok⟩ := hl.value kv hkv
    obtain ⟨values', hperm', hok'⟩ := hl'.value kv' hkv'
    rw [hkey] at hperm' hok'
    have hvalue : kv.value = kv'.value := by
      refine Ok.unique hok ?_
      show Ok (A.reduceFn kv.key values aux) kv'.value
      rw [hreduce _ _ _ hperm hperm']
      exact hok'
    have heq : kv = kv' := by
      obtain ⟨k, v⟩ := kv
      obtain ⟨k', v'⟩ := kv'
      exact congr (congrArg KeyValue.mk hkey.symm) hvalue
    exact heq ▸ hkv'
  exact (List.perm_ext_iff_of_nodup h.nodup.of_map h'.nodup.of_map).2 fun kv =>
    ⟨hsub h h' kv, hsub h' h kv⟩

end Runs

end MapReduce
end CS162

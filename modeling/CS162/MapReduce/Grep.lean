/-
# Lines with a term

`hw-map-reduce-rs/src/app/grep.rs`: the application `grep`.

A map task sends the lines that have the term, with their numbers, under the file's name.  The
values of a name reach reduce in any order; as line numbers of a file are different, sorting by
them gives one order (`reduce_congr`), and so the job prints the same in every run.
-/

import CS162.Basis.UnixPath
import CS162.MapReduce.Counting
import Mathlib.Data.List.Infix

namespace CS162
namespace MapReduce

open CS162.Basis

/-- `Result::unwrap`. -/
def unwrap {α : Type} (x : Run α) : Run α :=
  match x.run with
  | some (.ok a) => pure a
  | _ => panics

namespace Grep

/-- `deserialize_args`, of which the only argument is the term. -/
def deserializeArgs (P : Rust) (buf : Bytes) : Run Text :=
  match collect buf with
  | none => panics
  | some packets => do
    let args ← packets.mapM (stringFromBytes P)
    match P.tryParse args with
    | .error e => throw e
    | .ok term => pure term

/-- A line's number and the line. -/
def lineValue (n : ℕ) (line : Text) : Bytes := beBytes 8 n ++ utf8 line

/-- `map`. -/
def map (P : Rust) : MapFn := fun kv aux => do
  let term ← unwrap (deserializeArgs P aux)
  let s ← stringFromBytes P kv.value
  let found := (lines s).zipIdx.filter fun a => decide (term <:+: a.1)
  return found.map fun a => .ok ⟨kv.key, lineValue (a.2 + 1) a.1⟩

/-- The number that `get_u64` reads. -/
def lineNum (value : Bytes) : ℕ := ofBE (value.take 8)

/-- `values.sort_by_key(|value| value.clone().get_u64())`, which reads no key where there is
nothing to compare. -/
def sortValues (values : List Bytes) : Run (List Bytes) :=
  if values.length ≤ 1 ∨ ∀ value ∈ values, 8 ≤ value.length then pure (sortBy lineNum values)
  else panics

/-- `reduce`. -/
def reduce : ReduceFn := fun _ values _ => do
  let values ← sortValues values
  values.foldlM sendTo []

/-- The loop over the packets of a value, for at most so many turns. -/
def writeLines (P : Rust) : ℕ → Bytes → Run Text
  | 0, _ => panics
  | turns + 1, buf =>
    match next.run buf with
    | none => panics
    | some (none, _) => pure []
    | some (some value, buf) => do
      let (n, value) ← getU64 value
      let line ← stringFromBytes P value
      let rest ← writeLines P turns buf
      return '\t' :: decimal n ++ ": ".toList ++ line ++ '\n' :: rest

/-- The loop over the pairs. -/
def writeFiles (P : Rust) : List KeyValue → Run Text
  | [] => pure []
  | kv :: kva => do
    let filePath ← stringFromBytes P kv.key
    match fileName (utf8 filePath) with
    | none => throw "Failed to get file name"
    | some name =>
      match fromUtf8 name with
      | none => throw "Failed to convert OS string to str"
      | some name =>
        -- each packet takes four bytes at least
        let found ← writeLines P (kv.value.length + 1) kv.value
        let rest ← writeFiles P kva
        return name ++ ":\n".toList ++ found ++ rest

/-- `process_output`. -/
def processOutput (P : Rust) (kvs : List KeyValue) : Run Text :=
  writeFiles P (sortBy KeyValue.key kvs)

end Grep

/-- `grep`. -/
def grep (P : Rust) : App := ⟨Grep.map P, Grep.reduce, Grep.processOutput P⟩

namespace Grep

/-! ### Line numbers -/

section Lines

variable {s line : Text} {n n' : ℕ} {line' : Text}

/-- There are no more lines than characters. -/
theorem length_linesFrom (line s : Text) : (linesFrom line s).length ≤ line.length + s.length := by
  induction s generalizing line with
  | nil =>
    rw [linesFrom]
    match line with
    | [] => exact Nat.zero_le _
    | c :: line => exact Nat.succ_le_succ (Nat.zero_le _)
  | cons c s ih =>
    rw [linesFrom]
    have hnew := ih []
    have hmore := ih (line ++ [c])
    rw [List.length_append, List.length_singleton] at hmore
    rw [List.length_nil] at hnew
    rw [List.length_cons]
    split
    · rw [List.length_cons]
      omega
    · omega

theorem length_le_utf8 (s : Text) : s.length ≤ (utf8 s).length := by
  induction s with
  | nil => exact Nat.le_refl 0
  | cons c s ih =>
    have hpos := c.utf8Size_pos
    rw [utf8_cons, List.length_append, List.length_cons, String.length_utf8EncodeChar]
    omega

/-- There are no more lines than bytes. -/
theorem length_lines_le (s : Text) : (lines s).length ≤ (utf8 s).length :=
  (length_linesFrom [] s).trans (by
    rw [List.length_nil, Nat.zero_add]
    exact length_le_utf8 s)

theorem lineNum_lineValue (hn : n < 2 ^ 64) : lineNum (lineValue n line) = n := by
  unfold lineNum lineValue
  rw [List.take_left' (length_beBytes 8 n), ofBE_beBytes_of_lt hn]

end Lines

/-! ### Runs -/

section Runs

variable {P : Rust} {S S' : Setup} {aux : Bytes} {files : List (String × Bytes)}
  {emitted kvs : List KeyValue} {values values' : List Bytes}

/-- **A map task** sends lines of different numbers under the file's name. -/
theorem taskEmits {file : String × Bytes} (hlen : file.2.length < 2 ^ 64)
    (h : ((grep P).job S aux files).TaskEmits file kvs) :
    (∀ kv ∈ kvs, kv.key = file.1.toUTF8.toList) ∧
      ∀ kv ∈ kvs, ∀ kv' ∈ kvs, lineNum kv.value = lineNum kv'.value → kv.value = kv'.value := by
  obtain ⟨term, -, h⟩ := ok_bind.1 h
  obtain ⟨s, hs, h⟩ := ok_bind.1 h
  have hbytes : utf8 s = file.2 := ok_stringFromBytes.1 hs
  have hkvs := ok_pure.1 h
  have hmem : ∀ kv ∈ kvs, ∃ line n, (lines s)[n]? = some line ∧ n + 1 < 2 ^ 64 ∧
      kv = ⟨file.1.toUTF8.toList, lineValue (n + 1) line⟩ := by
    intro kv hkv
    have hok : Except.ok kv ∈ kvs.map (Except.ok (ε := String)) := List.mem_map_of_mem hkv
    rw [← hkvs] at hok
    obtain ⟨a, ha, hkv⟩ := List.mem_map.1 hok
    have hline := List.mem_zipIdx_iff_getElem?.1 (List.mem_of_mem_filter ha)
    have hlt := (List.getElem?_eq_some_iff.1 hline).1
    have hle := length_lines_le s
    rw [hbytes] at hle
    exact ⟨a.1, a.2, hline, by omega, (Except.ok.inj hkv).symm⟩
  constructor
  · intro kv hkv
    obtain ⟨line, n, -, -, rfl⟩ := hmem kv hkv
    rfl
  · intro kv hkv kv' hkv' hnum
    obtain ⟨line, n, hline, hn, rfl⟩ := hmem kv hkv
    obtain ⟨line', n', hline', hn', rfl⟩ := hmem kv' hkv'
    rw [lineNum_lineValue hn, lineNum_lineValue hn'] at hnum
    obtain rfl := Nat.succ.inj hnum
    rw [hline, Option.some_inj] at hline'
    rw [hline']

/-- Pairs with one key are of one file, if the files have different names. -/
theorem exists_part {R : String × Bytes → List KeyValue → Prop} {parts : List (List KeyValue)}
    (h : List.Forall₂ R files parts) (hnames : (files.map Prod.fst).Nodup)
    (hkey : ∀ file part, R file part → ∀ kv ∈ part, kv.key = file.1.toUTF8.toList) :
    (∀ kv ∈ parts.flatten, ∃ file ∈ files, kv.key = file.1.toUTF8.toList) ∧
      ∀ kv ∈ parts.flatten, ∀ kv' ∈ parts.flatten, kv.key = kv'.key →
        ∃ file part, R file part ∧ kv ∈ part ∧ kv' ∈ part := by
  induction h with
  | nil =>
    constructor
    · exact fun kv hkv => absurd hkv List.not_mem_nil
    · exact fun kv hkv => absurd hkv List.not_mem_nil
  | @cons file part files parts hR _ ih =>
    obtain ⟨hfirst, hrest⟩ := List.nodup_cons.1 hnames
    obtain ⟨ihkey, ihpart⟩ := ih hrest
    -- a pair of the first file has no key of another file
    have hother : ∀ kv ∈ part, ∀ kv' ∈ parts.flatten, kv.key ≠ kv'.key := by
      intro kv hkv kv' hkv' heq
      obtain ⟨file', hfile', hkey'⟩ := ihkey kv' hkv'
      rw [hkey file part hR kv hkv, hkey'] at heq
      exact hfirst (toUTF8_toList_inj heq ▸ List.mem_map_of_mem hfile')
    rw [List.flatten_cons]
    constructor
    · intro kv hkv
      rcases List.mem_append.1 hkv with hkv | hkv
      · exact ⟨file, List.mem_cons_self, hkey file part hR kv hkv⟩
      · obtain ⟨file', hfile', hkey'⟩ := ihkey kv hkv
        exact ⟨file', List.mem_cons_of_mem _ hfile', hkey'⟩
    · intro kv hkv kv' hkv' heq
      rcases List.mem_append.1 hkv with hkv | hkv
      · rcases List.mem_append.1 hkv' with hkv' | hkv'
        · exact ⟨file, part, hR, hkv, hkv'⟩
        · exact absurd heq (hother kv hkv kv' hkv')
      · rcases List.mem_append.1 hkv' with hkv' | hkv'
        · exact absurd heq.symm (hother kv' hkv' kv hkv)
        · exact ihpart kv hkv kv' hkv' heq

/-- **The values of a name have different line numbers.** -/
theorem lineNum_inj (hemits : ((grep P).job S aux files).Emits emitted)
    (hnames : (files.map Prod.fst).Nodup) (hlen : ∀ file ∈ files, file.2.length < 2 ^ 64) (k : Bytes) :
    ∀ v ∈ KeyValue.valuesOf k emitted, ∀ v' ∈ KeyValue.valuesOf k emitted,
      lineNum v = lineNum v' → v = v' := by
  obtain ⟨parts, hparts, rfl⟩ := hemits.exists_parts
  have hall : List.Forall₂ (fun file part => file.2.length < 2 ^ 64 ∧
      ((grep P).job S aux files).TaskEmits file part) files parts :=
    (List.forall₂_and_left _ _).2 ⟨hlen, hparts⟩
  have hmem : ∀ v ∈ KeyValue.valuesOf k parts.flatten, ∃ kv ∈ parts.flatten, kv.key = k ∧ kv.value = v := by
    intro v hv
    obtain ⟨kv, hkv, hpair⟩ := List.mem_map.1 (mem_valuesOf.1 hv)
    exact ⟨kv, hkv, (Prod.ext_iff.1 hpair).1, (Prod.ext_iff.1 hpair).2⟩
  intro v hv v' hv' hnum
  obtain ⟨kv, hkv, hk, rfl⟩ := hmem v hv
  obtain ⟨kv', hkv', hk', rfl⟩ := hmem v' hv'
  obtain ⟨file, part, ⟨hlt, htask⟩, hp, hp'⟩ := (exists_part hall hnames fun file part h =>
    (taskEmits h.1 h.2).1).2 kv hkv kv' hkv' (hk.trans hk'.symm)
  exact (taskEmits hlt htask).2 kv hp kv' hp' hnum

/-- **Reduce does not depend on the order of its values**, where line numbers tell them apart. -/
theorem reduce_congr (k aux : Bytes) (h : values.Perm values')
    (hnum : ∀ v ∈ values, ∀ v' ∈ values, lineNum v = lineNum v' → v = v') :
    reduce k values aux = reduce k values' aux := by
  unfold reduce sortValues
  have hcond : (values.length ≤ 1 ∨ ∀ value ∈ values, 8 ≤ value.length) ↔
      (values'.length ≤ 1 ∨ ∀ value ∈ values', 8 ≤ value.length) := by
    rw [h.length_eq]
    exact or_congr_right (forall_congr' fun v => imp_congr_left h.mem_iff)
  simp only [hcond, sortBy_congr h hnum]

/-- **Two runs of `grep` print the same.** -/
theorem result_eq (R : JobRun ((grep P).job S aux files)) (R' : JobRun ((grep P).job S' aux files))
    (hn : 0 < S.nReduce) (hn' : 0 < S'.nReduce) (hnames : (files.map Prod.fst).Nodup)
    (hlen : ∀ file ∈ files, file.2.length < 2 ^ 64) : R.result = R'.result := by
  obtain ⟨emitted, hemits⟩ := R.emits hn
  obtain ⟨kvs, hmerged, hresult⟩ := R.result_eq hn hemits
  obtain ⟨kvs', hmerged', hresult'⟩ := R'.result_eq hn' hemits
  have hperm : kvs.Perm kvs' := hmerged.perm hmerged' fun k values values' hvalues hvalues' => by
    refine reduce_congr k aux (hvalues.trans hvalues'.symm) fun v hv v' hv' => ?_
    exact lineNum_inj hemits hnames hlen k v (hvalues.mem_iff.1 hv) v' (hvalues.mem_iff.1 hv')
  have hsort : sortBy KeyValue.key kvs = sortBy KeyValue.key kvs' :=
    sortBy_congr hperm fun kv hkv kv' hkv' => List.inj_on_of_nodup_map hmerged.nodup hkv hkv'
  rw [hresult, hresult']
  exact congrArg (writeFiles P) hsort

end Runs

end Grep

end MapReduce
end CS162

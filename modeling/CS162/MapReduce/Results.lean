/-
# The results of jobs

Whatever the number of reduce tasks, the hash function and the order in which the outputs of map
tasks reach the reducers: `wc`, `grep` and `vertex-degree` print the same, and for `wc` and
`vertex-degree` this is the sorted table of counts (`results_agree`).
-/

import CS162.MapReduce.Grep

namespace CS162
namespace MapReduce

open CS162.Basis

section Results

variable {P : Rust} {S S' : Setup} {aux : Bytes} {files : List (String × Bytes)}

theorem Wc.results_agree (R : JobRun ((wc P).job S aux files)) (R' : JobRun ((wc P).job S' aux files))
    (hn : 0 < S.nReduce) (hn' : 0 < S'.nReduce) :
    ∃ all, AllItems (WordsOf P) files all ∧ ((∀ w, all.count w < 2 ^ 64) →
      ∃ table, Counts all table ∧ (table.Pairwise fun r r' => order r < order r') ∧
        R.result = pure (table.flatMap row) ∧ R'.result = pure (table.flatMap row)) := by
  obtain ⟨emitted, hemits⟩ := R.emits hn
  obtain ⟨all, hall, rfl⟩ := emits hemits
  refine ⟨all, hall, fun htotal => ?_⟩
  obtain ⟨table, hcounts, hsorted, hresult⟩ := result_eq R hn hemits htotal
  obtain ⟨table', hcounts', hsorted', hresult'⟩ := result_eq R' hn' hemits htotal
  obtain rfl : table = table' :=
    eq_of_strict hsorted hsorted' fun r => (hcounts r.1 r.2).trans (hcounts' r.1 r.2).symm
  exact ⟨table, hcounts, hsorted, hresult, hresult'⟩

theorem VertexDegree.results_agree (R : JobRun ((vertexDegree P).job S aux files))
    (R' : JobRun ((vertexDegree P).job S' aux files)) (hn : 0 < S.nReduce) (hn' : 0 < S'.nReduce) :
    ∃ all, AllItems EndpointsOf files all ∧ ((∀ v, all.count v < 2 ^ 64) →
      ∃ table, Counts all table ∧ (table.Pairwise fun r r' => r.1 < r'.1) ∧
        R.result = pure (table.flatMap row) ∧ R'.result = pure (table.flatMap row)) := by
  obtain ⟨emitted, hemits⟩ := R.emits hn
  obtain ⟨all, hall, rfl⟩ := emits hemits
  refine ⟨all, hall, fun htotal => ?_⟩
  have hlt : ∀ v ∈ all, v < 2 ^ 64 := fun v hv => endpoints_lt hall hv
  obtain ⟨table, hcounts, hsorted, hresult⟩ := result_eq R hn hemits hlt htotal
  obtain ⟨table', hcounts', hsorted', hresult'⟩ := result_eq R' hn' hemits hlt htotal
  obtain rfl : table = table' :=
    eq_of_strict hsorted hsorted' fun r => (hcounts r.1 r.2).trans (hcounts' r.1 r.2).symm
  exact ⟨table, hcounts, hsorted, hresult, hresult'⟩

end Results

/-- **Results do not depend on how the work is split.**  Two runs on the same files, with any
numbers of reduce tasks, hash functions and orders: those of `wc` print the words of all files
with their numbers of occurrences, by count and then by word; those of `vertex-degree` the
endpoints of all edges with theirs, by vertex; and those of `grep`, on files of different names,
the same. -/
theorem results_unsplit (P : Rust) (aux : Bytes) (files : List (String × Bytes)) (S S' : Setup)
    (hn : 0 < S.nReduce) (hn' : 0 < S'.nReduce) :
    (∀ (R : JobRun ((wc P).job S aux files)) (R' : JobRun ((wc P).job S' aux files)),
      ∃ all, AllItems (Wc.WordsOf P) files all ∧ ((∀ w, all.count w < 2 ^ 64) →
        ∃ table, Counts all table ∧ (table.Pairwise fun r r' => Wc.order r < Wc.order r') ∧
          R.result = pure (table.flatMap Wc.row) ∧ R'.result = pure (table.flatMap Wc.row))) ∧
    (∀ (R : JobRun ((vertexDegree P).job S aux files)) (R' : JobRun ((vertexDegree P).job S' aux files)),
      ∃ all, AllItems VertexDegree.EndpointsOf files all ∧ ((∀ v, all.count v < 2 ^ 64) →
        ∃ table, Counts all table ∧ (table.Pairwise fun r r' => r.1 < r'.1) ∧
          R.result = pure (table.flatMap VertexDegree.row) ∧
          R'.result = pure (table.flatMap VertexDegree.row))) ∧
    ∀ (R : JobRun ((grep P).job S aux files)) (R' : JobRun ((grep P).job S' aux files)),
      (files.map Prod.fst).Nodup → (∀ file ∈ files, file.2.length < 2 ^ 64) → R.result = R'.result := by
  refine ⟨?_, ?_, ?_⟩
  · exact fun R R' => Wc.results_agree R R' hn hn'
  · exact fun R R' => VertexDegree.results_agree R R' hn hn'
  · exact fun R R' hnames hlen => Grep.result_eq R R' hn hn' hnames hlen

/-! ### A run -/

/-- Letters of ASCII only. -/
def ascii : Rust where
  isAlphabetic c := c.isAlpha
  toLowercase s := s.map Char.toLower
  utf8Error _ := "invalid utf-8 sequence"
  overflowChecks := true
  tryParse args := args.head?.elim (.error "no term") .ok

/-- One reduce task. -/
def oneTask : Setup := ⟨0, fun _ => 0, 1⟩

/-- Two reduce tasks, to the second of which the keys go that begin with an odd byte. -/
def twoTasks : Setup := ⟨1, fun k => (k.headD 0).toNat, 2⟩

/-- `A b a`. -/
def threeWords : Text := ['A', ' ', 'b', ' ', 'a']

/-- What `wc` sends for a word of one byte. -/
def sentWord (b : UInt8) (count : ℕ) : Bytes := frame [b] ++ frame (beBytes 8 count)

/-- The map task for a file with `A b a`. -/
theorem mapTask_threeWords (S : Setup) (buckets : List Bytes)
    (h : [Except.ok (one utf8 ['a']), .ok (one utf8 ['b']), .ok (one utf8 ['a'])].foldlM
      (emit S.hash S.nReduce) (List.replicate S.nReduce []) = (pure buckets : Run (List Bytes))) :
    Ok (mapTask S.hash (Wc.map ascii) S.nReduce "a" (.ok (utf8 threeWords)) []) buckets := by
  have hwords : words ascii.isAlphabetic threeWords = [['A'], ['b'], ['a']] := by decide
  unfold mapTask Wc.map
  dsimp only
  rw [stringFromBytes_utf8, pure_bind, hwords]
  exact h

/-- A run of `wc` with one reduce task. -/
def runOne : JobRun ((wc ascii).job oneTask [] [("a", utf8 threeWords)]) where
  keySort _ := .insertion
  mapTasks _ := [⟨0, 0⟩]
  read _ a := (WorkerState.insertAll ⟨fun _ => none⟩ 0 0
    [sentWord 97 1 ++ sentWord 98 1 ++ sentWord 97 1]).readMap 0 a.task 0
  out _ := sentWord 97 2 ++ sentWord 98 1
  tasks _ _ := List.Perm.refl _
  stored i hi a ha := by
    obtain rfl := Nat.lt_one_iff.1 hi
    obtain rfl := List.mem_singleton.1 ha
    refine ⟨_, ⟨("a", utf8 threeWords), [sentWord 97 1 ++ sentWord 98 1 ++ sentWord 97 1], rfl,
      mapTask_threeWords oneTask _ rfl, fun i hi => ?_⟩, rfl⟩
    obtain rfl := Nat.lt_one_iff.1 hi
    rfl
  reduced i hi := by
    obtain rfl := Nat.lt_one_iff.1 hi
    rfl

/-- A run of `wc` with two reduce tasks. -/
def runTwo : JobRun ((wc ascii).job twoTasks [] [("a", utf8 threeWords)]) where
  keySort _ := .insertion
  mapTasks _ := [⟨0, 0⟩]
  read i a := (WorkerState.insertAll ⟨fun _ => none⟩ 1 0
    [sentWord 98 1, sentWord 97 1 ++ sentWord 97 1]).readMap 1 a.task i
  out i := if i = 0 then sentWord 98 1 else sentWord 97 2
  tasks _ _ := List.Perm.refl _
  stored i hi a ha := by
    obtain rfl := List.mem_singleton.1 ha
    refine ⟨_, ⟨("a", utf8 threeWords), [sentWord 98 1, sentWord 97 1 ++ sentWord 97 1], rfl,
      mapTask_threeWords twoTasks _ rfl, fun i hi => ?_⟩, rfl⟩
    match i, hi with
    | 0, _ => rfl
    | 1, _ => rfl
  reduced i hi := by
    match i, hi with
    | 0, _ => rfl
    | 1, _ => rfl

/-- The words of the file. -/
theorem words_threeWords {all : List Text}
    (h : AllItems (Wc.WordsOf ascii) [("a", utf8 threeWords)] all) :
    all = [['a'], ['b'], ['a']] := by
  obtain ⟨itemss, hitems, rfl⟩ := h
  match itemss, hitems with
  | [ws], .cons ⟨s, runs, hs, hruns, hws⟩ .nil =>
    have hbytes : utf8 s = utf8 threeWords := hs
    obtain rfl := utf8_inj hbytes
    rw [hws, ← hruns.words_eq]
    decide

/-- The file as one piece and as two, with one table of words. -/
theorem results_unsplit_wc : ∃ table, Counts [['a'], ['b'], ['a']] table ∧
    (table.Pairwise fun r r' => Wc.order r < Wc.order r') ∧
    runOne.result = pure (table.flatMap Wc.row) ∧ runTwo.result = pure (table.flatMap Wc.row) := by
  obtain ⟨all, hall, hresult⟩ :=
    (results_unsplit ascii [] [("a", utf8 threeWords)] oneTask twoTasks (by decide) (by decide)).1
      runOne runTwo
  obtain rfl := words_threeWords hall
  refine hresult fun w => ?_
  exact Nat.lt_of_le_of_lt List.count_le_length (by decide)

end MapReduce
end CS162

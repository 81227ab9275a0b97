/-
# Word counts and vertex degrees

`hw-map-reduce-rs/src/app/wc.rs` and `hw-map-reduce-rs/src/app/vertex_degree.rs`: the
applications `wc` and `vertex-degree`.

Both send the number one for each item (a word, an endpoint of an edge), and reduce adds the
numbers up.  What they print is a table of the items of all files with how often they occur
(`Counts`), sorted so that no two rows compare as equal.

What `char::is_alphabetic` and `str::to_lowercase` give for which text, the message of an error
in UTF-8, and whether sums are checked for overflow (they are in a debug build) are parameters
(`Rust`).
-/

import CS162.Basis.StableSort
import CS162.Basis.Strings
import CS162.MapReduce.Outputs
import Mathlib.Data.Prod.Lex

namespace CS162
namespace MapReduce

open CS162.Basis

/-! ### What the applications share -/

/-- What the applications use of the standard library and of clap. -/
structure Rust where
  isAlphabetic : Char → Bool
  toLowercase : Text → Text
  utf8Error : Bytes → String
  overflowChecks : Bool
  /-- `Args::try_parse_from`, which gives `grep` its term. -/
  tryParse : List Text → Except String Text

/-- `string_from_bytes`. -/
def stringFromBytes (P : Rust) (b : Bytes) : Run Text :=
  match fromUtf8 b with
  | none => throw (P.utf8Error b)
  | some s => pure s

/-- `Buf::get_u64`, and what is left of the buffer. -/
def getU64 (b : Bytes) : Run (ℕ × Bytes) :=
  if 8 ≤ b.length then pure (ofBE (b.take 8), b.drop 8) else panics

/-- `a + b` of type `u64`. -/
def addU64 (P : Rust) (a b : ℕ) : Run ℕ :=
  if a + b < 2 ^ 64 then pure (a + b)
  else if P.overflowChecks then panics
  else pure ((a + b) % 2 ^ 64)

/-- The loop of `reduce`. -/
def sumValues (P : Rust) : ℕ → List Bytes → Run ℕ
  | count, [] => pure count
  | count, value :: values => do
    let (n, _) ← getU64 value
    let count ← addU64 P count n
    sumValues P count values

/-- `reduce`, the same in both applications. -/
def countReduce (P : Rust) : ReduceFn := fun _ values _ => do
  let count ← sumValues P 0 values
  return beBytes 8 count

/-- The pair that is sent for an item. -/
def one {α : Type} (enc : α → Bytes) (a : α) : KeyValue := ⟨enc a, beBytes 8 1⟩

/-! ### `wc` -/

namespace Wc

/-- `map`. -/
def map (P : Rust) : MapFn := fun kv _ => do
  let s ← stringFromBytes P kv.value
  let ws := (words P.isAlphabetic s).map P.toLowercase
  return ws.map fun word => .ok (one utf8 word)

def reduce (P : Rust) : ReduceFn := countReduce P

/-- A pair that `process_output` reads. -/
def decode (P : Rust) (kv : KeyValue) : Run (Text × ℕ) := do
  let k ← stringFromBytes P kv.key
  let (v, _) ← getU64 kv.value
  return (k, v)

/-- By count, then by word. -/
def order (r : Text × ℕ) : Lex (ℕ × Bytes) := toLex (r.2, utf8 r.1)

/-- `"{}\t{}"`. -/
def row (r : Text × ℕ) : Text := decimal r.2 ++ '\t' :: r.1 ++ ['\n']

def processOutput (P : Rust) (kva : List KeyValue) : Run Text := do
  let decoded ← kva.mapM (decode P)
  return (sortBy order decoded).flatMap row

end Wc

/-- `wc`. -/
def wc (P : Rust) : App := ⟨Wc.map P, Wc.reduce P, Wc.processOutput P⟩

/-! ### `vertex-degree` -/

namespace VertexDegree

/-- The digits of `u64::from_str_radix`, after those that give `n`. -/
def parseDigits : ℕ → Text → Run ℕ
  | n, [] => pure n
  | n, c :: s =>
    if c.isDigit then
      let n := n * 10 + (c.toNat - '0'.toNat)
      if n < 2 ^ 64 then parseDigits n s else throw "number too large to fit in target type"
    else throw "invalid digit found in string"

/-- `str::parse::<u64>`. -/
def parse (s : Text) : Run ℕ :=
  match s with
  | [] => throw "cannot parse integer from empty string"
  -- a sign alone, and any minus, is an invalid digit
  | ['+'] => throw "invalid digit found in string"
  | '+' :: s => parseDigits 0 s
  | s => parseDigits 0 s

/-- `iter.next().ok_or_else(..)?`. -/
def nextWord : List Text → Run (Text × List Text)
  | [] => throw "Invalid input file format"
  | w :: ws => pure (w, ws)

/-- `parse_line`. -/
def parseLine (line : Text) : Run (ℕ × ℕ) := do
  let iter := (splitWhitespace line).take 2
  let (w, iter) ← nextWord iter
  let a ← parse w
  let (w, _) ← nextWord iter
  let b ← parse w
  return (a, b)

/-- The endpoints of edges. -/
def endpoints (edges : List (ℕ × ℕ)) : List ℕ := edges.flatMap fun e => [e.1, e.2]

/-- `map`. -/
def map (P : Rust) : MapFn := fun kv _ => do
  let s ← stringFromBytes P kv.value
  let edges ← (lines s).mapM parseLine
  return (endpoints edges).map fun v => .ok (one (beBytes 8) v)

def reduce (P : Rust) : ReduceFn := countReduce P

/-- A pair that `process_output` reads. -/
def decode (kv : KeyValue) : Run (ℕ × ℕ) := do
  let (vertex, _) ← getU64 kv.key
  let (degree, _) ← getU64 kv.value
  return (vertex, degree)

/-- `"{}\t{}"`. -/
def row (r : ℕ × ℕ) : Text := decimal r.1 ++ '\t' :: decimal r.2 ++ ['\n']

def processOutput (kva : List KeyValue) : Run Text := do
  let decoded ← kva.mapM decode
  return (sortBy Prod.fst decoded).flatMap row

end VertexDegree

/-- `vertex-degree`. -/
def vertexDegree (P : Rust) : App :=
  ⟨VertexDegree.map P, VertexDegree.reduce P, VertexDegree.processOutput⟩

/-! ### Reading back -/

section Read

variable {P : Rust} {s : Text} {b : Bytes} {n : ℕ}

theorem ok_stringFromBytes : Ok (stringFromBytes P b) s ↔ utf8 s = b := by
  unfold stringFromBytes
  rw [← fromUtf8_eq_some_iff]
  match fromUtf8 b with
  | none => exact iff_of_false not_ok_throw (fun h => nomatch h)
  | some t => exact ok_pure.trans Option.some_inj.symm

theorem stringFromBytes_utf8 (s : Text) : stringFromBytes P (utf8 s) = pure s :=
  ok_stringFromBytes.2 rfl

theorem getU64_beBytes (h : n < 2 ^ 64) : getU64 (beBytes 8 n) = pure (n, []) := by
  have hlen : (beBytes 8 n).length = 8 := length_beBytes 8 n
  rw [getU64, if_pos hlen.ge, List.take_of_length_le hlen.le, List.drop_of_length_le hlen.le,
    ofBE_beBytes_of_lt h]

/-- Adding up ones. -/
theorem sumValues_ones {count : ℕ} (h : count + n < 2 ^ 64) :
    sumValues P count (List.replicate n (beBytes 8 1)) = pure (count + n) := by
  induction n generalizing count with
  | zero => rfl
  | succ n ih =>
    rw [List.replicate_succ, sumValues, getU64_beBytes (by decide), pure_bind]
    dsimp only
    rw [addU64, if_pos (by omega), pure_bind, ih (by omega), Nat.add_right_comm, Nat.add_assoc]

theorem countReduce_ones {k aux : Bytes} (h : n < 2 ^ 64) :
    countReduce P k (List.replicate n (beBytes 8 1)) aux = pure (beBytes 8 n) := by
  unfold countReduce
  rw [sumValues_ones (by rwa [Nat.zero_add]), pure_bind, Nat.zero_add]

theorem parseDigits_lt {m : ℕ} (hm : m < 2 ^ 64) (h : Ok (VertexDegree.parseDigits m s) n) :
    n < 2 ^ 64 := by
  induction s generalizing m with
  | nil => exact ok_pure.1 h ▸ hm
  | cons c s ih =>
    unfold VertexDegree.parseDigits at h
    dsimp only at h
    split at h
    · split at h
      · rename_i hlt
        exact ih hlt h
      · exact absurd h not_ok_throw
    · exact absurd h not_ok_throw

theorem parse_lt (h : Ok (VertexDegree.parse s) n) : n < 2 ^ 64 := by
  unfold VertexDegree.parse at h
  split at h
  · exact absurd h not_ok_throw
  · exact absurd h not_ok_throw
  · exact parseDigits_lt (Nat.two_pow_pos 64) h
  · exact parseDigits_lt (Nat.two_pow_pos 64) h

theorem parseLine_lt {e : ℕ × ℕ} (h : Ok (VertexDegree.parseLine s) e) :
    e.1 < 2 ^ 64 ∧ e.2 < 2 ^ 64 := by
  obtain ⟨w, -, h⟩ := ok_bind.1 h
  obtain ⟨a, ha, h⟩ := ok_bind.1 h
  obtain ⟨w', -, h⟩ := ok_bind.1 h
  obtain ⟨b, hb, h⟩ := ok_bind.1 h
  obtain rfl := ok_pure.1 h
  exact ⟨parse_lt ha, parse_lt hb⟩

end Read

/-! ### Counting -/

/-- A table of the items of a list with how often they occur. -/
def Counts {α : Type} [BEq α] (items : List α) (table : List (α × ℕ)) : Prop :=
  ∀ a n, (a, n) ∈ table ↔ a ∈ items ∧ n = items.count a

/-- What lists of items the files have, and all items. -/
def AllItems {α : Type} (ItemsOf : Bytes → List α → Prop) (files : List (String × Bytes))
    (all : List α) : Prop :=
  ∃ itemss, List.Forall₂ (fun file items => ItemsOf file.2 items) files itemss ∧ all = itemss.flatten

section Counting

variable {α : Type} [BEq α] [LawfulBEq α] {enc : α → Bytes} {items : List α} {A : App} {S : Setup}
  {P : Rust} {aux : Bytes} {files : List (String × Bytes)} {kvs emitted : List KeyValue}

/-- The values of an item are ones, as many as it occurs. -/
theorem valuesOf_ones (henc : ∀ a ∈ items, ∀ b ∈ items, enc a = enc b → a = b) {a : α} (ha : a ∈ items)
    {l : List α} (hl : ∀ b ∈ l, b ∈ items) :
    KeyValue.valuesOf (enc a) (l.map (one enc)) = List.replicate (l.count a) (beBytes 8 1) := by
  induction l with
  | nil => rfl
  | cons b l ih =>
    obtain ⟨hb, hl⟩ := List.forall_mem_cons.1 hl
    unfold KeyValue.valuesOf at ih ⊢
    rw [List.map_cons, List.map_cons]
    by_cases hab : b = a
    · subst hab
      rw [List.count_cons_self, List.replicate_succ, ← ih hl]
      exact valuesOf_cons_self
    · rw [List.count_cons_of_ne hab, ← ih hl]
      exact valuesOf_cons_of_ne fun h => hab (henc b hb a ha h)

/-- What is a value of `f` at each place is a list of values. -/
theorem exists_map {β γ : Type} {f : β → γ} {Q : β → Prop} {l : List γ}
    (h : ∀ c ∈ l, ∃ b, f b = c ∧ Q b) : ∃ l' : List β, l'.map f = l ∧ ∀ b ∈ l', Q b := by
  induction l with
  | nil => exact ⟨[], rfl, fun b hb => absurd hb List.not_mem_nil⟩
  | cons c l ih =>
    obtain ⟨⟨b, rfl, hb⟩, hl⟩ := List.forall_mem_cons.1 h
    obtain ⟨l', rfl, hl'⟩ := ih hl
    exact ⟨b :: l', rfl, List.forall_mem_cons.2 ⟨hb, hl'⟩⟩

/-- **The pairs of all output files count the items.** -/
theorem Job.Merged.counts (h : (A.job S aux files).Merged (items.map (one enc)) kvs)
    (hreduce : A.reduceFn = countReduce P)
    (henc : ∀ a ∈ items, ∀ b ∈ items, enc a = enc b → a = b) (htotal : ∀ a, items.count a < 2 ^ 64) :
    ∃ table : List (α × ℕ), table.map (fun r => ⟨enc r.1, beBytes 8 r.2⟩) = kvs ∧
      (table.map Prod.fst).Nodup ∧ Counts items table := by
  have hkeys : ∀ k, k ∈ keys (items.map (one enc)) ↔ ∃ a ∈ items, enc a = k := by
    intro k
    unfold keys
    rw [List.map_map, List.mem_map]
    rfl
  have hrow : ∀ kv ∈ kvs, ∃ r : α × ℕ, (⟨enc r.1, beBytes 8 r.2⟩ : KeyValue) = kv ∧
      r.1 ∈ items ∧ r.2 = items.count r.1 := by
    intro kv hkv
    obtain ⟨a, ha, hkey⟩ := (hkeys _).1 ((h.key _).1 (List.mem_map_of_mem hkv))
    obtain ⟨values, hperm, hok⟩ := h.value kv hkv
    rw [← hkey, valuesOf_ones henc ha fun b hb => hb, List.perm_replicate] at hperm
    have hvalue : countReduce P kv.key values aux = pure kv.value := hreduce ▸ hok
    rw [hperm, countReduce_ones (htotal a)] at hvalue
    refine ⟨(a, items.count a), ?_, ha, rfl⟩
    obtain ⟨k, v⟩ := kv
    exact congr (congrArg KeyValue.mk hkey) (Ok.unique (x := pure (beBytes 8 (items.count a))) rfl
      (ok_iff.2 hvalue))
  obtain ⟨table, rfl, htable⟩ := exists_map hrow
  refine ⟨table, rfl, ?_, fun a n => ⟨fun hr => htable _ hr, ?_⟩⟩
  · have hnodup := h.nodup
    unfold keys at hnodup
    rw [List.map_map] at hnodup
    have hcomp : (table.map fun r => enc r.1) = (table.map Prod.fst).map enc := by
      rw [List.map_map]
      rfl
    exact List.Nodup.of_map enc (hcomp ▸ hnodup)
  · rintro ⟨ha, rfl⟩
    have hmem := (h.key (enc a)).2 ((hkeys _).2 ⟨a, ha, rfl⟩)
    unfold keys at hmem
    rw [List.map_map] at hmem
    obtain ⟨r, hr, hra⟩ := List.mem_map.1 hmem
    obtain ⟨hitem, hcount⟩ := htable r hr
    obtain ⟨b, n⟩ := r
    obtain rfl : b = a := henc b hitem a ha hra
    obtain rfl : n = items.count b := hcount
    exact hr

/-- Relations between the elements of lists that come from values of `f`. -/
theorem forall₂_exists {β γ δ : Type} {R : δ → γ → Prop} {Q : δ → β → Prop} {f : β → γ} {l : List δ}
    {l' : List γ} (h : List.Forall₂ R l l') (hR : ∀ a c, R a c → ∃ b, Q a b ∧ f b = c) :
    ∃ m, List.Forall₂ Q l m ∧ m.map f = l' := by
  induction h with
  | nil => exact ⟨[], .nil, rfl⟩
  | cons hac _ ih =>
    obtain ⟨b, hb, rfl⟩ := hR _ _ hac
    obtain ⟨m, hm, rfl⟩ := ih
    exact ⟨b :: m, .cons hb hm, rfl⟩

theorem exists_of_forall₂ {γ δ : Type} {R : δ → γ → Prop} {l : List δ} {l' : List γ}
    (h : List.Forall₂ R l l') {c : γ} (hc : c ∈ l') : ∃ a, R a c := by
  induction h with
  | nil => exact absurd hc List.not_mem_nil
  | cons hac _ ih =>
    rcases List.mem_cons.1 hc with rfl | hc
    · exact ⟨_, hac⟩
    · exact ih hc

omit [BEq α] [LawfulBEq α] in
/-- The map tasks send a one for each item of each file. -/
theorem Job.Emits.allItems {ItemsOf : Bytes → List α → Prop}
    (h : (A.job S aux files).Emits emitted)
    (htask : ∀ file kvs, (A.job S aux files).TaskEmits file kvs →
      ∃ items, ItemsOf file.2 items ∧ items.map (one enc) = kvs) :
    ∃ all, AllItems ItemsOf files all ∧ emitted = all.map (one enc) := by
  obtain ⟨parts, hparts, rfl⟩ := h.exists_parts
  obtain ⟨itemss, hitems, rfl⟩ := forall₂_exists hparts htask
  exact ⟨itemss.flatten, ⟨itemss, hitems, rfl⟩, List.map_flatten.symm⟩

omit [BEq α] [LawfulBEq α] in
theorem map_ok_inj
    (h : items.map (fun a => Except.ok (ε := String) (one enc a)) = kvs.map .ok) :
    items.map (one enc) = kvs := by
  have hmap : (items.map (one enc)).map (Except.ok (ε := String)) = kvs.map .ok := by
    rw [← h, List.map_map]
    rfl
  exact List.map_injective_iff.2 (fun _ _ => Except.ok.inj) hmap

end Counting

/-! ### What `wc` prints -/

namespace Wc

variable {P : Rust} {S : Setup} {aux : Bytes} {files : List (String × Bytes)}
  {emitted : List KeyValue} {all : List Text} {table : List (Text × ℕ)}

/-- The words of a file: its maximal alphabetic runs, in lower case. -/
def WordsOf (P : Rust) (content : Bytes) (ws : List Text) : Prop :=
  ∃ s runs, utf8 s = content ∧ MaximalRuns P.isAlphabetic s runs ∧ ws = runs.map P.toLowercase

/-- The map tasks send a one for each word. -/
theorem emits (h : ((wc P).job S aux files).Emits emitted) :
    ∃ all, AllItems (WordsOf P) files all ∧ emitted = all.map (one utf8) := by
  refine h.allItems fun file kvs htask => ?_
  obtain ⟨s, hs, htask⟩ := ok_bind.1 htask
  exact ⟨_, ⟨s, _, ok_stringFromBytes.1 hs, maximalRuns_words s, rfl⟩, map_ok_inj (ok_pure.1 htask)⟩

theorem order_inj {r r' : Text × ℕ} (h : order r = order r') : r = r' := by
  have hpair : (r.2, utf8 r.1) = (r'.2, utf8 r'.1) := toLex.injective h
  exact Prod.ext (utf8_inj (Prod.ext_iff.1 hpair).2) (Prod.ext_iff.1 hpair).1

/-- `process_output` sorts a table and prints it. -/
theorem processOutput_table (h : ∀ r ∈ table, r.2 < 2 ^ 64) :
    processOutput P (table.map fun r => ⟨utf8 r.1, beBytes 8 r.2⟩) =
      pure ((sortBy order table).flatMap row) := by
  have hdecode : ∀ r ∈ table, (decode P ∘ fun r => ⟨utf8 r.1, beBytes 8 r.2⟩) r = pure (id r) := by
    intro r hr
    unfold decode
    dsimp only [Function.comp_apply]
    rw [stringFromBytes_utf8, pure_bind, getU64_beBytes (h r hr), pure_bind]
    rfl
  unfold processOutput
  rw [List.mapM_map, mapM_ok hdecode, pure_bind, List.map_id]

/-- **A run of `wc` prints the words with their counts**, sorted by count and then by word. -/
theorem result_eq (R : JobRun ((wc P).job S aux files)) (hn : 0 < S.nReduce)
    (hemits : ((wc P).job S aux files).Emits (all.map (one utf8)))
    (htotal : ∀ w, all.count w < 2 ^ 64) : ∃ table, Counts all table ∧
      (table.Pairwise fun r r' => order r < order r') ∧ R.result = pure (table.flatMap row) := by
  obtain ⟨kvs, hmerged, hresult⟩ := R.result_eq hn hemits
  obtain ⟨table, rfl, hnodup, hcounts⟩ := hmerged.counts rfl (fun _ _ _ _ => utf8_inj) htotal
  have hlt : ∀ r ∈ table, r.2 < 2 ^ 64 := fun r hr => by
    rw [((hcounts r.1 r.2).1 hr).2]
    exact htotal r.1
  refine ⟨sortBy order table, fun w n => mem_sortBy.trans (hcounts w n), ?_, ?_⟩
  · exact sortBy_strict (List.Nodup.map (fun _ _ => order_inj) hnodup.of_map)
  · rw [hresult]
    exact processOutput_table hlt

end Wc

/-! ### What `vertex-degree` prints -/

namespace VertexDegree

variable {P : Rust} {S : Setup} {aux : Bytes} {files : List (String × Bytes)}
  {emitted : List KeyValue} {all : List ℕ} {table : List (ℕ × ℕ)}

/-- The endpoints of a file's edges, one edge on each line. -/
def EndpointsOf (content : Bytes) (vs : List ℕ) : Prop :=
  ∃ s edges, utf8 s = content ∧ List.Forall₂ (fun line e => Ok (parseLine line) e) (lines s) edges ∧
    vs = endpoints edges

/-- The map tasks send a one for each endpoint. -/
theorem emits (h : ((vertexDegree P).job S aux files).Emits emitted) :
    ∃ all, AllItems EndpointsOf files all ∧ emitted = all.map (one (beBytes 8)) := by
  refine h.allItems fun file kvs htask => ?_
  obtain ⟨s, hs, htask⟩ := ok_bind.1 htask
  obtain ⟨edges, hedges, htask⟩ := ok_bind.1 htask
  exact ⟨_, ⟨s, edges, ok_stringFromBytes.1 hs, forall₂_of_mapM hedges, rfl⟩,
    map_ok_inj (ok_pure.1 htask)⟩

/-- Vertices are below `2 ^ 64`. -/
theorem endpoints_lt (h : AllItems EndpointsOf files all) {v : ℕ} (hv : v ∈ all) : v < 2 ^ 64 := by
  obtain ⟨itemss, hitems, rfl⟩ := h
  obtain ⟨vs, hvs, hv⟩ := List.mem_flatten.1 hv
  obtain ⟨file, s, edges, -, hedges, rfl⟩ := exists_of_forall₂ hitems hvs
  obtain ⟨e, he, hv⟩ := List.mem_flatMap.1 hv
  obtain ⟨line, hline⟩ := exists_of_forall₂ hedges he
  obtain ⟨h₁, h₂⟩ := parseLine_lt hline
  rcases List.mem_pair.1 hv with rfl | rfl
  · exact h₁
  · exact h₂

/-- `process_output` sorts a table and prints it. -/
theorem processOutput_table (h : ∀ r ∈ table, r.1 < 2 ^ 64 ∧ r.2 < 2 ^ 64) :
    processOutput (table.map fun r => ⟨beBytes 8 r.1, beBytes 8 r.2⟩) =
      pure ((sortBy Prod.fst table).flatMap row) := by
  have hdecode : ∀ r ∈ table, (decode ∘ fun r => ⟨beBytes 8 r.1, beBytes 8 r.2⟩) r = pure (id r) := by
    intro r hr
    unfold decode
    dsimp only [Function.comp_apply]
    rw [getU64_beBytes (h r hr).1, pure_bind]
    dsimp only
    rw [getU64_beBytes (h r hr).2, pure_bind]
    rfl
  unfold processOutput
  rw [List.mapM_map, mapM_ok hdecode, pure_bind, List.map_id]

/-- **A run of `vertex-degree` prints the vertices with their degrees**, sorted by vertex. -/
theorem result_eq (R : JobRun ((vertexDegree P).job S aux files)) (hn : 0 < S.nReduce)
    (hemits : ((vertexDegree P).job S aux files).Emits (all.map (one (beBytes 8))))
    (hlt : ∀ v ∈ all, v < 2 ^ 64) (htotal : ∀ v, all.count v < 2 ^ 64) : ∃ table, Counts all table ∧
      (table.Pairwise fun r r' => r.1 < r'.1) ∧ R.result = pure (table.flatMap row) := by
  obtain ⟨kvs, hmerged, hresult⟩ := R.result_eq hn hemits
  have henc : ∀ v ∈ all, ∀ v' ∈ all, beBytes 8 v = beBytes 8 v' → v = v' := fun v hv v' hv' h => by
    have hnum := congrArg ofBE h
    rwa [ofBE_beBytes_of_lt (hlt v hv), ofBE_beBytes_of_lt (hlt v' hv')] at hnum
  obtain ⟨table, rfl, hnodup, hcounts⟩ := hmerged.counts rfl henc htotal
  have hrows : ∀ r ∈ table, r.1 < 2 ^ 64 ∧ r.2 < 2 ^ 64 := fun r hr => by
    obtain ⟨hv, hn⟩ := (hcounts r.1 r.2).1 hr
    rw [hn]
    exact ⟨hlt _ hv, htotal _⟩
  refine ⟨sortBy Prod.fst table, fun v n => mem_sortBy.trans (hcounts v n), sortBy_strict hnodup, ?_⟩
  rw [hresult]
  exact processOutput_table hrows

end VertexDegree

end MapReduce
end CS162

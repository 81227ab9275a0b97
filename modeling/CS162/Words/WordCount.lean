/-
# Counting words

`hw-intro/words/main.c`, lines 47-122, and `hw-intro/words/word_count.c`, lines 82-128:
`num_words`, `count_words` and `add_word`.

A run is at a byte of the stream: `Scanned` says how the buffer, its length and `in_word` relate
to the letters of the run that has been read so far.  With memory for all words, `count_words`
leaves the words in the order in which they first occur, each with its number of occurrences,
and their sum is what `num_words` returns (`countWords_exact`).

Requests for memory are granted as `grant` says, the `n`-th one by `grant n`.
-/

import CS162.Basis.Bytes
import CS162.Basis.Frequencies
import CS162.Basis.MaximalRuns
import CS162.Basis.Program
import Mathlib.Algebra.Group.Int.Defs

namespace CS162
namespace Words

open CS162.Basis

abbrev Bytes := List UInt8

/-- `MAX_WORD_LEN`. -/
def maxWordLen : ℕ := 64

/-- `INT_MAX`. -/
def intMax : ℤ := 2 ^ 31 - 1

/-- `isalpha`, in the C locale. -/
def isalpha (ch : UInt8) : Bool :=
  (65 ≤ ch.toNat && ch.toNat ≤ 90) || (97 ≤ ch.toNat && ch.toNat ≤ 122)

/-- `tolower`, in the C locale. -/
def tolower (ch : UInt8) : UInt8 := if 65 ≤ ch.toNat ∧ ch.toNat ≤ 90 then ch + 32 else ch

/-- `struct word_count`, without the link to the next one; a null word is `none`. -/
structure WordCount where
  word : Option Bytes
  count : ℤ

/-! ### `add_word` -/

section Source

variable (grant : ℕ → Bool)

/-- `malloc`; the state is the number of requests so far. -/
def malloc : Prog ℕ Bool := do
  let n ← get
  set (n + 1)
  return grant n

/-- `strdup`. -/
def strdup (word : Bytes) : Prog ℕ (Option Bytes) := do
  let ok ← malloc grant
  return if ok then some word else none

/-- `x++` on an `int`. -/
def increment (x : ℤ) : Prog ℕ ℤ := if x < intMax then pure (x + 1) else halt

/-- The loop of `add_word` from an element on: what it returns, and the list from there. -/
def addFrom (word : Bytes) : List WordCount → Prog ℕ (ℤ × List WordCount)
  | [] => pure (0, [])
  | current :: next =>
    match current.word with
    -- `strcmp` of a null pointer
    | none => halt
    | some w =>
      if w = word then do
        let count ← increment current.count
        return (0, { current with count := count } :: next)
      else if next.isEmpty then do
        let ok ← malloc grant
        if ok then
          let copy ← strdup grant word
          return (0, [current, ⟨copy, 1⟩])
        else return (1, [current])
      else do
        let (r, next) ← addFrom word next
        return (r, current :: next)

/-- `add_word`: what it returns, and the list that it leaves. -/
def addWord (wclist : List WordCount) (word : Bytes) : Prog ℕ (ℤ × List WordCount) := do
  if wclist.isEmpty then
    let ok ← malloc grant
    if ok then
      match ← strdup grant word with
      | none => return (1, [])
      | some copy => return (0, [⟨copy, 1⟩])
    else return (1, [])
  else addFrom grant word wclist

/-! ### The scanners -/

/-- `word[i] = ch`. -/
def store (word : Bytes) (i : ℕ) (ch : UInt8) : Prog ℕ Bytes :=
  if i < word.length then pure (word.set i ch) else halt

/-- The string in a buffer. -/
def readString (word : Bytes) : Prog ℕ Bytes :=
  if 0 ∈ word then pure (word.takeWhile (· ≠ 0)) else halt

/-- The end of a word: `word[word_len] = 0` and `add_word`. -/
def endWord (word : Bytes) (wordLen : ℕ) (wclist : List WordCount) :
    Prog ℕ (Bytes × ℤ × List WordCount) := do
  let word ← store word wordLen 0
  let s ← readString word
  let (r, wclist) ← addWord grant wclist s
  return (word, r, wclist)

/-- The loop of `count_words`, and what follows it. -/
def countFrom (word : Bytes) (wordLen : ℕ) (inWord : Bool) (wclist : List WordCount) :
    Bytes → Prog ℕ (ℤ × List WordCount)
  | [] => do
    if inWord && 0 < wordLen then
      let (_, r, wclist) ← endWord grant word wordLen wclist
      return (if r ≠ 0 then 1 else 0, wclist)
    else return (0, wclist)
  | ch :: infile => do
    if isalpha ch then
      if wordLen < maxWordLen then
        let word ← store word wordLen (tolower ch)
        countFrom word (wordLen + 1) true wclist infile
      else countFrom word wordLen true wclist infile
    else if inWord then
      let (word, r, wclist) ← endWord grant word wordLen wclist
      if r ≠ 0 then return (1, wclist)
      else countFrom word 0 false wclist infile
    else countFrom word wordLen inWord wclist infile

/-- `count_words`, with what the buffer holds at first: what it returns, and the list that it
leaves.  There may be no stream. -/
def countWords (word : Bytes) (wclist : List WordCount) (infile : Option Bytes) :
    Prog ℕ (ℤ × List WordCount) :=
  match infile with
  | none => pure (1, wclist)
  | some infile => countFrom grant word 0 false wclist infile

end Source

/-- The loop of `num_words`. -/
def numFrom (numWords : ℤ) (currWord : Bool) : Bytes → Prog ℕ ℤ
  | [] => pure numWords
  | ch :: infile => do
    if isalpha ch then
      if currWord then numFrom numWords true infile
      else
        let numWords ← increment numWords
        numFrom numWords true infile
    else numFrom numWords false infile

/-- `num_words`. -/
def numWords (infile : Option Bytes) : Prog ℕ ℤ :=
  match infile with
  | none => pure (-1)
  | some infile => numFrom 0 false infile

/-! ### Adding words -/

/-- The list that holds a table. -/
def ofTable (table : List (Bytes × ℕ)) : List WordCount := table.map fun r => ⟨some r.1, r.2⟩

section Add

variable {grant : ℕ → Bool} {s : ℕ} {table : List (Bytes × ℕ)} {w word : Bytes}

theorem returns_malloc (hgrant : ∀ n, grant n = true) : Returns (malloc grant) s fun ok _ => ok = true :=
  ⟨_, _, rfl, hgrant s⟩

theorem returns_strdup (hgrant : ∀ n, grant n = true) :
    Returns (strdup grant w) s fun copy _ => copy = some w :=
  (returns_malloc hgrant).seq fun _ _ hok => returns_pure.2 (if_pos hok)

theorem returns_increment {x : ℤ} (hx : x < intMax) : Returns (increment x) s fun y _ => y = x + 1 := by
  rw [increment, if_pos hx]
  exact returns_pure.2 rfl

/-- The loop of `add_word` counts the word. -/
theorem returns_addFrom (hgrant : ∀ n, grant n = true) (hne : table ≠ [])
    (hfew : ∀ r ∈ table, (r.2 : ℤ) < intMax) :
    Returns (addFrom grant w (ofTable table)) s fun r _ => r = (0, ofTable (bump w table)) := by
  induction table with
  | nil => exact absurd rfl hne
  | cons r table ih =>
    obtain ⟨hr, htable⟩ := List.forall_mem_cons.1 hfew
    unfold ofTable bump
    rw [List.map_cons, addFrom]
    dsimp only
    by_cases hw : r.1 = w
    · rw [if_pos hw, if_pos hw]
      refine (returns_increment hr).seq fun count _ hcount => returns_pure.2 ?_
      rw [hcount]
      rfl
    · rw [if_neg hw, if_neg hw]
      cases table with
      | nil =>
        rw [if_pos (by rfl)]
        refine (returns_malloc hgrant).seq fun ok _ hok => ?_
        rw [if_pos hok]
        refine (returns_strdup hgrant).seq fun copy _ hcopy => returns_pure.2 ?_
        rw [hcopy]
        rfl
      | cons r' table =>
        rw [if_neg (by exact Bool.false_ne_true)]
        refine (ih (List.cons_ne_nil _ _) htable).seq fun a _ ha => ?_
        rw [ha]
        exact returns_pure.2 rfl

/-- **`add_word`** counts the word, if there is memory for it. -/
theorem returns_addWord (hgrant : ∀ n, grant n = true) (hfew : ∀ r ∈ table, (r.2 : ℤ) < intMax) :
    Returns (addWord grant (ofTable table) w) s fun r _ => r = (0, ofTable (bump w table)) := by
  unfold addWord
  cases table with
  | nil =>
    rw [if_pos (by rfl)]
    refine (returns_malloc hgrant).seq fun ok _ hok => ?_
    rw [if_pos hok]
    refine (returns_strdup hgrant).seq fun copy _ hcopy => ?_
    rw [hcopy]
    exact returns_pure.2 rfl
  | cons r table =>
    rw [if_neg (by exact Bool.false_ne_true)]
    exact returns_addFrom hgrant (List.cons_ne_nil _ _) hfew

end Add

/-! ### The buffer -/

/-- A word as it is counted: its first letters, in lower case. -/
def cut (w : Bytes) : Bytes := (w.map tolower).take maxWordLen

/-- **What the scanner knows of a run**, of which the letters `w` have been read. -/
structure Scanned (w word : Bytes) (wordLen : ℕ) (inWord : Bool) : Prop where
  letters : ∀ ch ∈ w, isalpha ch = true
  room : word.length = maxWordLen + 1
  len : wordLen = min maxWordLen w.length
  text : word.take wordLen = cut w
  open' : inWord = !w.isEmpty

section Buffer

variable {grant : ℕ → Bool} {s wordLen : ℕ} {table : List (Bytes × ℕ)} {w word : Bytes}
  {inWord : Bool} {ch : UInt8}

theorem tolower_ne_zero (h : isalpha ch = true) : tolower ch ≠ 0 := by
  unfold isalpha at h
  unfold tolower
  simp only [Bool.or_eq_true, Bool.and_eq_true, decide_eq_true_eq] at h
  intro h0
  split at h0
  · have hnat := congrArg UInt8.toNat h0
    rw [UInt8.toNat_add] at hnat
    simp at hnat
    omega
  · rw [h0] at h
    simp at h

theorem Scanned.start (hroom : word.length = maxWordLen + 1) : Scanned [] word 0 false where
  letters _ hch := absurd hch List.not_mem_nil
  room := hroom
  len := rfl
  text := rfl
  open' := rfl

/-- A letter that goes into the buffer. -/
theorem Scanned.store (h : Scanned w word wordLen inWord) (hch : isalpha ch = true)
    (hlt : wordLen < maxWordLen) : Scanned (w ++ [ch]) (word.set wordLen (tolower ch)) (wordLen + 1) true := by
  have hlen := h.len
  have hroom := h.room
  have hshort : wordLen = w.length := by omega
  constructor
  · exact List.forall_mem_append.2 ⟨h.letters, List.forall_mem_singleton.2 hch⟩
  · rw [List.length_set, hroom]
  · rw [List.length_append, List.length_singleton]
    omega
  · have hget : (word.set wordLen (tolower ch))[wordLen]? = some (tolower ch) := by
      rw [List.getElem?_set_self (by omega)]
    have htext : word.take wordLen = w.map tolower := by
      rw [h.text, cut, List.take_of_length_le]
      rw [List.length_map]
      omega
    have hcut : cut (w ++ [ch]) = w.map tolower ++ [tolower ch] := by
      rw [cut, List.map_append, List.map_singleton, List.take_of_length_le]
      rw [List.length_append, List.length_map, List.length_singleton]
      omega
    rw [List.take_add_one, hget, List.take_set, List.set_eq_of_length_le, htext, hcut]
    · rfl
    · rw [List.length_take]
      exact Nat.min_le_left _ _
  · rw [Bool.eq_iff_iff]
    simp

/-- A letter for which there is no room. -/
theorem Scanned.skip (h : Scanned w word wordLen inWord) (hch : isalpha ch = true)
    (hge : ¬wordLen < maxWordLen) : Scanned (w ++ [ch]) word wordLen true := by
  have hlen := h.len
  constructor
  · exact List.forall_mem_append.2 ⟨h.letters, List.forall_mem_singleton.2 hch⟩
  · exact h.room
  · rw [List.length_append, List.length_singleton]
    omega
  · rw [h.text, cut, cut, List.map_append, List.take_append_of_le_length]
    rw [List.length_map]
    omega
  · rw [Bool.eq_iff_iff]
    simp

/-- **The end of a run**: the letters in the buffer are counted as a word. -/
theorem Scanned.returns_endWord (h : Scanned w word wordLen inWord) (hgrant : ∀ n, grant n = true)
    (hfew : ∀ r ∈ table, (r.2 : ℤ) < intMax) :
    Returns (endWord grant word wordLen (ofTable table)) s fun r _ =>
      r.1.length = maxWordLen + 1 ∧ r.2 = (0, ofTable (bump (cut w) table)) := by
  have hlen := h.len
  have hroom := h.room
  have hlt : wordLen < word.length := by omega
  have hcut : ∀ ch ∈ cut w, (decide (ch ≠ 0)) = true := by
    intro ch hch
    obtain ⟨a, ha, rfl⟩ := List.mem_map.1 (List.mem_of_mem_take hch)
    exact decide_eq_true (tolower_ne_zero (h.letters a ha))
  have hset : word.set wordLen 0 = cut w ++ 0 :: word.drop (wordLen + 1) := by
    rw [List.set_eq_take_append_cons_drop, if_pos hlt, h.text]
  have hstring : readString (word.set wordLen 0) = pure (cut w) := by
    rw [readString, hset, if_pos (List.mem_append_right _ List.mem_cons_self),
      List.takeWhile_append_of_pos hcut, List.takeWhile_cons_of_neg (by decide), List.append_nil]
  unfold endWord Words.store
  rw [if_pos hlt]
  refine returns_pure_bind.2 ?_
  rw [hstring]
  refine returns_pure_bind.2 ((returns_addWord hgrant hfew).seq fun r _ hr => ?_)
  rw [hr]
  exact returns_pure.2 ⟨by rw [List.length_set, hroom], rfl⟩

end Buffer

/-! ### The scanners -/

section Scan

variable {grant : ℕ → Bool} {s wordLen : ℕ} {ws : List Bytes} {w word infile : Bytes} {inWord : Bool}

/-- The table of words. -/
def tableOf (ws : List Bytes) : List (Bytes × ℕ) := ws.foldl (fun l w => bump w l) []

theorem tableOf_concat (ws : List Bytes) (w : Bytes) : tableOf (ws ++ [w]) = bump w (tableOf ws) := by
  unfold tableOf
  rw [List.foldl_append]
  rfl

/-- Counts are below the bound where there are few words. -/
theorem counts_lt (ws : List Bytes) (h : (ws.length : ℤ) < intMax) : ∀ r ∈ tableOf ws, (r.2 : ℤ) < intMax := by
  intro r hr
  have hle := (frequencies_foldl ws).1.le_length hr
  omega

/-- **The scanner of `count_words`**, with the words `ws` in the list and the letters `w` of a run:
it adds the words that it still finds. -/
theorem Scanned.returns_countFrom (h : Scanned w word wordLen inWord) (hgrant : ∀ n, grant n = true)
    (hfew : ((ws ++ (wordsFrom isalpha w infile).map cut).length : ℤ) ≤ intMax) :
    Returns (countFrom grant word wordLen inWord (ofTable (tableOf ws)) infile) s fun r _ =>
      r = (0, ofTable (tableOf (ws ++ (wordsFrom isalpha w infile).map cut))) := by
  induction infile generalizing ws w word wordLen inWord s with
  | nil =>
    have hlen := h.len
    rw [countFrom, wordsFrom, h.open']
    cases w with
    | nil =>
      rw [if_neg (by exact Bool.false_ne_true), if_pos (by rfl), List.map_nil, List.append_nil]
      exact returns_pure.2 rfl
    | cons ch w =>
      rw [List.length_cons] at hlen
      have hpos : 0 < wordLen := by
        unfold maxWordLen at hlen
        omega
      have hcond : ((!(ch :: w).isEmpty) && decide (0 < wordLen)) = true := by
        rw [decide_eq_true hpos]
        rfl
      rw [wordsFrom, if_neg (by exact Bool.false_ne_true), List.length_append] at hfew
      have hcounts := counts_lt ws (by
        rw [List.map_singleton, List.length_singleton] at hfew
        omega)
      rw [if_pos hcond, if_neg (by exact Bool.false_ne_true)]
      refine (h.returns_endWord hgrant hcounts).seq fun r _ hr => ?_
      obtain ⟨word', r, l⟩ := r
      obtain ⟨rfl, rfl⟩ := Prod.mk.inj hr.2
      rw [List.map_singleton, tableOf_concat]
      exact returns_pure.2 rfl
  | cons ch infile ih =>
    rw [countFrom]
    rw [wordsFrom] at hfew ⊢
    by_cases hch : isalpha ch = true
    · rw [if_pos hch] at hfew ⊢
      by_cases hlt : wordLen < maxWordLen
      · have hroom := h.room
        rw [if_pos hch, if_pos hlt, Words.store, if_pos (by omega)]
        exact returns_pure_bind.2 (ih (h.store hch hlt) hfew)
      · rw [if_pos hch, if_neg hlt]
        exact ih (h.skip hch hlt) hfew
    · rw [if_neg hch] at hfew ⊢
      rw [if_neg hch, h.open']
      cases w with
      | nil =>
        rw [if_pos (by rfl)] at hfew
        rw [if_neg (by exact Bool.false_ne_true), if_pos (by rfl)]
        have hlen := h.len
        have hzero : wordLen = 0 := by
          rw [hlen]
          rfl
        rw [hzero]
        exact ih (Scanned.start h.room) hfew
      | cons a w =>
        rw [if_neg (by exact Bool.false_ne_true)] at hfew
        rw [if_pos (by rfl), if_neg (by exact Bool.false_ne_true)]
        rw [List.map_cons, ← List.singleton_append, ← List.append_assoc] at hfew ⊢
        have hcounts := counts_lt ws (by
          rw [List.length_append, List.length_append, List.length_singleton] at hfew
          omega)
        refine (h.returns_endWord hgrant hcounts).seq fun r _ hr => ?_
        obtain ⟨word', r, l⟩ := r
        obtain ⟨rfl, rfl⟩ := Prod.mk.inj hr.2
        dsimp only
        rw [if_neg (by exact fun hne => hne rfl), ← tableOf_concat]
        exact ih (Scanned.start hr.1) hfew

/-- **The scanner of `num_words`**, in a run with the letters `w`, which is counted already. -/
theorem returns_numFrom {k : ℤ} (hfew : k + (wordsFrom isalpha w infile).length ≤ intMax) :
    Returns (numFrom (k + if w.isEmpty then 0 else 1) (!w.isEmpty) infile) s fun r _ =>
      r = k + (wordsFrom isalpha w infile).length := by
  induction infile generalizing k w s with
  | nil =>
    rw [numFrom, wordsFrom]
    refine returns_pure.2 ?_
    split
    · rfl
    · rfl
  | cons ch infile ih =>
    rw [numFrom]
    rw [wordsFrom] at hfew ⊢
    by_cases hch : isalpha ch = true
    · rw [if_pos hch] at hfew ⊢
      rw [if_pos hch]
      have hopen := List.length_pos_iff.2
        (wordsFrom_ne_nil (p := isalpha) (List.append_ne_nil_of_right_ne_nil w (List.cons_ne_nil ch [])) infile)
      cases w with
      | nil =>
        rw [if_neg (by exact Bool.false_ne_true)]
        refine (returns_increment (by
          rw [if_pos (by rfl)]
          omega)).seq fun n _ hn => ?_
        rw [hn, if_pos (by rfl), Int.add_zero]
        exact ih (w := [ch]) hfew
      | cons a w =>
        rw [if_pos (by rfl)]
        exact ih (w := a :: w ++ [ch]) hfew
    · rw [if_neg hch] at hfew ⊢
      rw [if_neg hch]
      cases w with
      | nil => exact ih (w := []) hfew
      | cons a w =>
        rw [if_neg (by exact Bool.false_ne_true), List.length_cons, Int.natCast_succ] at hfew
        rw [if_neg (by exact Bool.false_ne_true), if_neg (by exact Bool.false_ne_true), List.length_cons,
          Int.natCast_succ]
        have hrest := ih (s := s) (k := k + 1) (w := []) (by omega)
        rw [if_pos (by rfl), Int.add_zero] at hrest
        refine hrest.mono fun r _ hr => ?_
        rw [hr]
        omega

end Scan

/-- **Word frequencies.**  On a stream with fewer than `2 ^ 31` words, with memory for them and
whatever the buffer holds, `count_words` returns 0 and leaves a list with the maximal alphabetic
runs of the stream, in lower case and cut to 64 letters, in the order of their first occurrences,
each with its number of occurrences; and the sum of these is what `num_words` returns. -/
theorem countWords_exact {grant : ℕ → Bool} (hgrant : ∀ n, grant n = true) {stream : Bytes}
    {runs : List Bytes} (hruns : MaximalRuns isalpha stream runs) (hfew : runs.length < 2 ^ 31)
    {word : Bytes} (hroom : word.length = maxWordLen + 1) (requests : ℕ) :
    ∃ table : List (Bytes × ℕ), Frequencies (runs.map cut) table ∧
      Returns (countWords grant word [] (some stream)) requests (fun r _ => r = (0, ofTable table)) ∧
      Returns (numWords (some stream)) requests
        (fun r _ => r = ((table.map Prod.snd).sum : ℕ)) := by
  have hwords : wordsFrom isalpha [] stream = runs := (wordsFrom_nil_eq stream).trans hruns.words_eq
  have hmax : (runs.length : ℤ) ≤ intMax := by
    unfold intMax
    omega
  obtain ⟨hfrequencies, hsum⟩ := frequencies_foldl (runs.map cut)
  refine ⟨tableOf (runs.map cut), hfrequencies, ?_, ?_⟩
  · have hcount : Returns (countFrom grant word 0 false (ofTable (tableOf [])) stream) requests fun r _ =>
        r = (0, ofTable (tableOf ([] ++ (wordsFrom isalpha [] stream).map cut))) :=
      (Scanned.start hroom).returns_countFrom hgrant (by rwa [List.nil_append, hwords, List.length_map])
    rw [List.nil_append, hwords] at hcount
    exact hcount
  · have hnum : Returns (numFrom (0 + 0) false stream) requests fun r _ =>
        r = 0 + (wordsFrom isalpha [] stream).length :=
      returns_numFrom (w := []) (by rwa [hwords, Int.zero_add])
    rw [hwords] at hnum
    refine hnum.mono fun r _ hr => ?_
    rw [hr]
    unfold tableOf
    rw [hsum, List.length_map, Int.zero_add]

/-- `a b A`, counted. -/
theorem countWords_exact_ab : ∃ table : List (Bytes × ℕ),
    Frequencies ([[97], [98], [65]].map cut) table ∧
      Returns (countWords (fun _ => true) (List.replicate 65 1) [] (some [97, 32, 98, 32, 65])) 0
        (fun r _ => r = (0, ofTable table)) ∧
      Returns (numWords (some [97, 32, 98, 32, 65])) 0 (fun r _ => r = ((table.map Prod.snd).sum : ℕ)) :=
  countWords_exact (fun _ => rfl) (maximalRuns_iff.2 (by decide)) (by decide) (by decide) 0

end Words
end CS162

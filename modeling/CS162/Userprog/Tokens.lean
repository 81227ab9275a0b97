/-
# The words of a command line in a stack page

`projects1-3/src/lib/string.c`, lines 211-246 (`strtok_r`), and
`userprog/process.c`, lines 713 and 721-725, the loop of `init_cmd_line` that
collects the words.

The page has 4096 bytes; an access outside it does not return, nor does one
outside `arguments`.  `strtok_r`'s delimiter is the space, and pointers into the
page are offsets.

Where a string of words lies in the page the loop finds them (`tokens_returns`);
where no null byte follows, it runs out of the page (`tokens_never`).
-/

import CS162.Basis.ByteMemory
import CS162.Basis.Program
import CS162.Userprog.Vaddr

namespace CS162
namespace Userprog

open CS162.Basis

/-- What `init_cmd_line` works on: the page and its static array. -/
structure StackPage where
  page : Memory
  arguments : ℕ → UInt32

abbrev OnStack := Prog StackPage

/-- `MAX_ARGS`. -/
def maxArgs : ℕ := 1024

/-- `*s`. -/
def loadByte (s : ℕ) : OnStack UInt8 := do
  let S ← get
  if s < 4096 then return S.page s else halt

/-- `memcpy (dst, buf, size)`. -/
def memcpy (dst : ℕ) (buf : List UInt8) : OnStack Unit :=
  if dst + buf.length ≤ 4096 then modify fun S => { S with page := store S.page dst buf }
  else halt

/-- The first loop of `strtok_r`: whether it found a token. -/
def skipDelimiters : ℕ → ℕ → OnStack (ℕ × Bool)
  | 0, _ => halt
  | n + 1, s => do
    let c ← loadByte s
    if c = 32 ∨ c = 0 then
      if c = 0 then return (s, false) else skipDelimiters n (s + 1)
    else return (s, true)

/-- The second loop of `strtok_r`. -/
def skipToken : ℕ → ℕ → OnStack ℕ
  | 0, _ => halt
  | n + 1, s => do
    let c ← loadByte s
    if c = 32 ∨ c = 0 then return s else skipToken n (s + 1)

/-- `strtok_r (s, " ", &save_ptr)`: the token and `save_ptr`. -/
def strtokR (s : Option ℕ) (savePtr : ℕ) : OnStack (Option ℕ × ℕ) := do
  let (token, found) ← skipDelimiters 4096 (s.getD savePtr)
  if found = false then return (none, token)
  else
    let s ← skipToken 4096 token
    let c ← loadByte s
    if c ≠ 0 then
      memcpy s [0]
      return (some token, s + 1)
    else return (some token, s)

/-- `arguments[argc] = upage + (karg - kpage)`. -/
def setArgument (upage : UInt32) (argc karg : ℕ) : OnStack Unit :=
  if argc < maxArgs then
    modify fun S => { S with
      arguments := Function.update S.arguments argc (upage + UInt32.ofNat karg) }
  else halt

/-- The loop of `init_cmd_line` from a result of `strtok_r` on; `argc` goes up in
each turn. -/
def collect (upage : UInt32) : ℕ → Option ℕ × ℕ → ℕ → OnStack ℕ
  | 0, _, _ => halt
  | _ + 1, (none, _), argc => return argc
  | n + 1, (some karg, savePtr), argc => do
    setArgument upage argc karg
    let token ← strtokR none savePtr
    collect upage n token (argc + 1)

/-- Parsing the line: the number of words. -/
def tokens (upage : UInt32) (s : ℕ) : OnStack ℕ := do
  let token ← strtokR (some s) 0
  collect upage (maxArgs + 1) token 0

/-! ### Command lines -/

/-- A word of a command line. -/
structure CmdWord where
  bytes : List UInt8
  nonempty : bytes ≠ []
  plain : ∀ b ∈ bytes, b ≠ 32 ∧ b ≠ 0

/-- Words separated by runs of spaces; a word that is not the first comes with the
number of spaces before it, less one. -/
structure CmdLine where
  first : CmdWord
  rest : List (ℕ × CmdWord)

/-- The words of a line that are not the first, each after its spaces. -/
def restText : List (ℕ × CmdWord) → List UInt8
  | [] => []
  | (k, w) :: rest => List.replicate (k + 1) 32 ++ w.bytes ++ restText rest

def CmdLine.text (line : CmdLine) : List UInt8 := line.first.bytes ++ restText line.rest

def CmdLine.words (line : CmdLine) : List (List UInt8) :=
  line.first.bytes :: line.rest.map fun p => p.2.bytes

/-! ### One token -/

variable {S : StackPage}

theorem loadByte_returns {s : ℕ} (hs : s < 4096) {Q : UInt8 → StackPage → Prop}
    (h : Q (S.page s) S) : Returns (loadByte s) S Q := by
  unfold loadByte
  rw [returns_get_bind, if_pos hs]
  exact returns_pure.2 h

theorem memcpy_returns {dst : ℕ} {buf : List UInt8} (hdst : dst + buf.length ≤ 4096)
    {Q : Unit → StackPage → Prop} (h : Q () { S with page := store S.page dst buf }) :
    Returns (memcpy dst buf) S Q := by
  unfold memcpy
  rw [if_pos hdst]
  exact returns_modify.2 h

/-- At a null byte there is no token. -/
theorem skipDelimiters_end {n s : ℕ} (hs : s < 4096) (hend : S.page s = 0)
    {Q : ℕ × Bool → StackPage → Prop} (h : Q (s, false) S) :
    Returns (skipDelimiters (n + 1) s) S Q := by
  refine Returns.bind (loadByte_returns hs ?_)
  rw [if_pos (.inr hend), if_pos hend]
  exact returns_pure.2 h

/-- Spaces are skipped up to a word. -/
theorem skipDelimiters_word {k n s : ℕ} {c : UInt8} (hn : k < n) (hs : s + k < 4096)
    (htext : Holds S.page s (List.replicate k 32 ++ [c])) (hc : c ≠ 32 ∧ c ≠ 0)
    {Q : ℕ × Bool → StackPage → Prop} (h : Q (s + k, true) S) :
    Returns (skipDelimiters n s) S Q := by
  induction k generalizing n s with
  | zero =>
    obtain ⟨n, rfl⟩ : ∃ m, n = m + 1 := ⟨n - 1, by omega⟩
    have hbyte : S.page s = c := (holds_cons.1 htext).1
    rw [Nat.add_zero] at hs h
    refine Returns.bind (loadByte_returns hs ?_)
    rw [hbyte, if_neg (not_or.2 hc)]
    exact returns_pure.2 h
  | succ k ih =>
    obtain ⟨n, rfl⟩ : ∃ m, n = m + 1 := ⟨n - 1, by omega⟩
    rw [List.replicate_succ, List.cons_append, holds_cons] at htext
    refine Returns.bind (loadByte_returns (by omega) ?_)
    rw [htext.1, if_pos (.inl rfl), if_neg (by decide)]
    rw [Nat.add_comm k, ← Nat.add_assoc] at h
    exact ih (by omega) (by omega) htext.2 h

/-- A word is passed over. -/
theorem skipToken_word {w : List UInt8} {n s : ℕ} {c : UInt8} (hn : w.length < n)
    (hs : s + w.length < 4096) (htext : Holds S.page s (w ++ [c]))
    (hw : ∀ b ∈ w, b ≠ 32 ∧ b ≠ 0) (hc : c = 32 ∨ c = 0) {Q : ℕ → StackPage → Prop}
    (h : Q (s + w.length) S) : Returns (skipToken n s) S Q := by
  induction w generalizing n s with
  | nil =>
    obtain ⟨n, rfl⟩ : ∃ m, n = m + 1 := ⟨n - 1, by omega⟩
    have hbyte : S.page s = c := (holds_cons.1 htext).1
    rw [List.length_nil, Nat.add_zero] at hs h
    refine Returns.bind (loadByte_returns hs ?_)
    rw [hbyte, if_pos hc]
    exact returns_pure.2 h
  | cons x w ih =>
    obtain ⟨n, rfl⟩ : ∃ m, n = m + 1 := ⟨n - 1, by omega⟩
    rw [List.cons_append, holds_cons] at htext
    rw [List.length_cons] at hn hs h
    refine Returns.bind (loadByte_returns (by omega) ?_)
    rw [htext.1, if_neg (not_or.2 (hw x List.mem_cons_self))]
    rw [Nat.add_comm w.length, ← Nat.add_assoc] at h
    exact ih (by omega) (by omega) htext.2 (fun b hb => hw b (List.mem_cons_of_mem _ hb)) h

/-- What `strtok_r` does at a word: it ends it with a null byte. -/
structure TokenTaken (S : StackPage) (start stop : ℕ) (r : Option ℕ × ℕ) (S' : StackPage) :
    Prop where
  token : r.1 = some start
  save : r.2 = if S.page stop = 0 then stop else stop + 1
  ended : S'.page stop = 0
  page : ∀ p, p ≠ stop → S'.page p = S.page p
  arguments : S'.arguments = S.arguments

/-- `strtok_r` from spaces and a word on. -/
theorem strtokR_word {s : Option ℕ} {savePtr p k : ℕ} {w : CmdWord} {c : UInt8}
    (hp : s.getD savePtr = p)
    (htext : Holds S.page p (List.replicate k 32 ++ w.bytes ++ [c])) (hc : c = 32 ∨ c = 0)
    (hroom : p + k + w.bytes.length < 4096) :
    Returns (strtokR s savePtr) S (TokenTaken S (p + k) (p + k + w.bytes.length)) := by
  obtain ⟨x, w', hw⟩ := List.exists_cons_of_ne_nil w.nonempty
  have hword := (holds_append.1 htext).1
  have hlength : (List.replicate k (32 : UInt8)).length = k := List.length_replicate
  rw [List.append_assoc, holds_append, hlength] at htext
  obtain ⟨hspaces, htoken⟩ := htext
  have hx : x ≠ 32 ∧ x ≠ 0 := w.plain x (hw ▸ List.mem_cons_self)
  have hskip : Holds S.page p (List.replicate k 32 ++ [x]) := by
    rw [holds_append, hlength]
    rw [hw, List.cons_append, holds_cons] at htoken
    exact ⟨hspaces, holds_cons.2 ⟨htoken.1, holds_nil⟩⟩
  have hstop : S.page (p + k + w.bytes.length) = c :=
    (holds_cons.1 (holds_append.1 htoken).2).1
  unfold strtokR
  rw [hp]
  refine Returns.bind (skipDelimiters_word (by omega) (by omega) hskip hx ?_)
  dsimp only
  rw [if_neg (by decide)]
  refine Returns.bind (skipToken_word (by omega) hroom htoken w.plain hc ?_)
  refine Returns.bind (loadByte_returns hroom ?_)
  split_ifs with hnull
  · refine Returns.bind (memcpy_returns (by simp; omega) (returns_pure.2 ?_))
    refine ⟨rfl, (if_neg hnull).symm, (holds_cons.1 holds_store).1, fun q hq => ?_, rfl⟩
    rcases Nat.lt_or_gt_of_ne hq with hlt | hgt
    · exact store_of_lt hlt
    · exact store_of_ge hgt
  · have hzero := not_not.1 hnull
    exact returns_pure.2 ⟨rfl, (if_pos hzero).symm, hzero, fun _ _ => rfl, rfl⟩

/-! ### All tokens -/

/-- The words found in the `l` bytes from `p` on, from index `argc` on. -/
structure TokensFound (upage : UInt32) (S : StackPage) (p l argc : ℕ) (words : List (List UInt8))
    (n : ℕ) (S' : StackPage) : Prop where
  count : n = argc + words.length
  found : ∀ i w, words[i]? = some w → ∃ s, p ≤ s ∧ s + w.length ≤ p + l ∧
    S'.arguments (argc + i) = upage + UInt32.ofNat s ∧ HoldsString S'.page s w
  kept : ∀ i < argc, S'.arguments i = S.arguments i
  page : ∀ q, q < p ∨ p + l < q → S'.page q = S.page q

theorem setArgument_returns {upage : UInt32} {argc karg : ℕ} (hroom : argc < maxArgs)
    {Q : Unit → StackPage → Prop}
    (h : Q () { S with
      arguments := Function.update S.arguments argc (upage + UInt32.ofNat karg) }) :
    Returns (setArgument upage argc karg) S Q := by
  unfold setArgument
  rw [if_pos hroom]
  exact returns_modify.2 h

/-- The token is a string of its own. -/
theorem TokenTaken.string {start : ℕ} {w : List UInt8} {r : Option ℕ × ℕ} {S' : StackPage}
    (h : TokenTaken S start (start + w.length) r S') (hw : Holds S.page start w) :
    HoldsString S'.page start w := by
  refine holds_append.2 ⟨hw.congr fun q _ hq => h.page q (Nat.ne_of_lt hq), ?_⟩
  exact holds_cons.2 ⟨h.ended, holds_nil⟩

/-- **The loop finds every word**, from spaces and a first one on. -/
theorem collect_returns {upage : UInt32} {rest : List (ℕ × CmdWord)} {w : CmdWord}
    {s : Option ℕ} {savePtr p k argc fuel : ℕ} (hp : s.getD savePtr = p)
    (htext : Holds S.page p (List.replicate k 32 ++ w.bytes ++ (restText rest ++ [0])))
    (hroom : p + (k + w.bytes.length + (restText rest).length) < 4096)
    (hargs : argc + rest.length < maxArgs) (hfuel : rest.length + 1 < fuel) :
    Returns (strtokR s savePtr >>= fun token => collect upage fuel token argc) S
      (TokensFound upage S p (k + w.bytes.length + (restText rest).length) argc
        (w.bytes :: rest.map fun q => q.2.bytes)) := by
  induction rest generalizing S s savePtr p k w argc fuel with
  | nil =>
    obtain ⟨fuel, rfl⟩ : ∃ m, fuel = m + 2 := ⟨fuel - 2, by rw [List.length_nil] at hfuel; omega⟩
    rw [restText, List.nil_append] at htext
    simp only [restText, List.length_nil, Nat.add_zero] at hroom hargs ⊢
    have hword : Holds S.page (p + k) w.bytes := by
      have h := (holds_append.1 (holds_append.1 htext).1).2
      rwa [List.length_replicate] at h
    have hnull : S.page (p + k + w.bytes.length) = 0 := by
      have h := (holds_cons.1 (holds_append.1 htext).2).1
      rwa [List.length_append, List.length_replicate, ← Nat.add_assoc] at h
    refine (strtokR_word hp htext (.inr rfl) (by omega)).seq fun r S₁ h => ?_
    obtain ⟨token, save⟩ := r
    obtain rfl : token = some (p + k) := h.token
    obtain rfl : save = p + k + w.bytes.length := h.save.trans (if_pos hnull)
    refine Returns.bind (setArgument_returns hargs ?_)
    -- the line is at its end
    refine Returns.bind ?_
    unfold strtokR
    refine Returns.bind (skipDelimiters_end ?_ ?_ ?_)
    · rw [Option.getD_none]
      omega
    · exact h.ended
    dsimp only
    rw [if_pos rfl]
    refine returns_pure.2 (returns_pure.2 ⟨rfl, fun i v hv => ?_, fun i hi => ?_, fun q hq => ?_⟩)
    · obtain ⟨rfl, rfl⟩ : i = 0 ∧ w.bytes = v := by
        cases i with
        | zero => exact ⟨rfl, Option.some.inj hv⟩
        | succ i => simp at hv
      exact ⟨p + k, Nat.le_add_right p k, by omega, by simp, h.string hword⟩
    · have hne : i ≠ argc := Nat.ne_of_lt hi
      simp only [Function.update_of_ne hne, h.arguments]
    · exact h.page q (by omega)
  | cons next rest ih =>
    obtain ⟨k', w'⟩ := next
    obtain ⟨fuel, rfl⟩ : ∃ m, fuel = m + 1 := ⟨fuel - 1, by omega⟩
    have hrest : restText ((k', w') :: rest) =
        32 :: (List.replicate k' 32 ++ w'.bytes ++ restText rest) := by
      rw [restText, List.replicate_succ]
      rfl
    have hrestLength : (restText ((k', w') :: rest)).length =
        k' + w'.bytes.length + (restText rest).length + 1 := by
      rw [hrest, List.length_cons, List.length_append, List.length_append, List.length_replicate]
    rw [hrestLength] at hroom
    rw [List.length_cons] at hargs hfuel
    rw [hrest, List.cons_append, holds_append, List.length_append, List.length_replicate,
      ← Nat.add_assoc, holds_cons, List.append_assoc] at htext
    obtain ⟨hfirst, hspace, htail⟩ := htext
    have hword : Holds S.page (p + k) w.bytes := by
      have h := (holds_append.1 hfirst).2
      rwa [List.length_replicate] at h
    have htoken : Holds S.page p (List.replicate k 32 ++ w.bytes ++ [32]) := by
      rw [holds_append, List.length_append, List.length_replicate, ← Nat.add_assoc]
      exact ⟨hfirst, holds_cons.2 ⟨hspace, holds_nil⟩⟩
    refine (strtokR_word hp htoken (.inl rfl) (by omega)).seq fun r S₁ h => ?_
    obtain ⟨token, save⟩ := r
    obtain rfl : token = some (p + k) := h.token
    obtain rfl : save = p + k + w.bytes.length + 1 :=
      h.save.trans (if_neg (by rw [hspace]; decide))
    refine Returns.bind (setArgument_returns (by omega) ?_)
    have htail₁ : Holds S₁.page (p + k + w.bytes.length + 1)
        (List.replicate k' 32 ++ w'.bytes ++ (restText rest ++ [0])) := by
      exact htail.congr fun q hq _ => h.page q (by omega)
    have hargs' : argc + 1 + rest.length < maxArgs := by omega
    refine (ih (S := ⟨S₁.page, Function.update S₁.arguments argc (upage + UInt32.ofNat (p + k))⟩)
      (s := none) (p := p + k + w.bytes.length + 1) rfl htail₁ (by omega) hargs'
      (Nat.lt_of_succ_lt_succ hfuel)).mono fun n S₂ h₂ => ?_
    have hkept : ∀ q, q ≤ p + k + w.bytes.length → S₂.page q = S₁.page q := fun q hq =>
      h₂.page q (.inl (Nat.lt_succ_of_le hq))
    refine ⟨?_, fun i v hv => ?_, fun i hi => ?_, fun q hq => ?_⟩
    · rw [h₂.count, List.length_cons, List.length_cons, List.map_cons, List.length_cons]
      omega
    · cases i with
      | zero =>
        obtain rfl : w.bytes = v := Option.some.inj hv
        refine ⟨p + k, Nat.le_add_right p k, by omega, ?_, (h.string hword).congr ?_⟩
        · rw [Nat.add_zero, h₂.kept argc (Nat.lt_succ_self argc)]
          simp
        · intro q _ hq
          rw [List.length_append] at hq
          exact hkept q (by simpa using Nat.lt_succ_iff.1 hq)
      | succ i =>
        obtain ⟨s', hlo, hhi, harg, hstring⟩ := h₂.found i v hv
        rw [Nat.add_right_comm] at harg
        exact ⟨s', by omega, by rw [hrestLength]; omega, harg, hstring⟩
    · have hne : i ≠ argc := Nat.ne_of_lt hi
      rw [h₂.kept i (Nat.lt_succ_of_lt hi)]
      simp only [Function.update_of_ne hne, h.arguments]
    · rw [hrestLength] at hq
      rw [h₂.page q (by omega)]
      exact h.page q (by omega)

/-- **The words of a line in the page are found.** -/
theorem tokens_returns {upage : UInt32} {line : CmdLine} {s : ℕ}
    (htext : HoldsString S.page s line.text) (hroom : s + line.text.length < 4096)
    (hargs : line.words.length ≤ maxArgs) :
    Returns (tokens upage s) S (TokensFound upage S s line.text.length 0 line.words) := by
  have hcount : line.rest.length < maxArgs := by
    rw [CmdLine.words, List.length_cons, List.length_map] at hargs
    exact hargs
  rw [CmdLine.text, List.length_append] at hroom ⊢
  unfold HoldsString CmdLine.text at htext
  rw [List.append_assoc] at htext
  have htext' : Holds S.page s
      (List.replicate 0 32 ++ line.first.bytes ++ (restText line.rest ++ [0])) := htext
  have hroom' : s + (0 + line.first.bytes.length + (restText line.rest).length) < 4096 := by
    omega
  have hs : (some s).getD 0 = s := rfl
  rw [← Nat.zero_add line.first.bytes.length]
  exact collect_returns hs htext' hroom' (Nat.lt_of_le_of_lt (Nat.zero_add _).le hcount)
    (Nat.succ_lt_succ hcount)

/-! ### A line without its end -/

/-- No string ends in the rest of the page. -/
def NoNull (m : Memory) (p : ℕ) : Prop := ∀ q, p ≤ q → q < 4096 → m q ≠ 0

theorem loadByte_ensures {s : ℕ} :
    Ensures (loadByte s) S fun c S' => c = S.page s ∧ S' = S ∧ s < 4096 := by
  show Ensures (if s < 4096 then pure (S.page s) else halt) S _
  split_ifs with hs
  · exact ensures_pure ⟨rfl, rfl, hs⟩
  · exact ensures_halt

theorem skipDelimiters_ensures {n s : ℕ} (hnull : NoNull S.page s) :
    Ensures (skipDelimiters n s) S fun r S' => S' = S ∧ r.2 = true ∧ s ≤ r.1 := by
  induction n generalizing s with
  | zero => exact ensures_halt
  | succ n ih =>
    refine loadByte_ensures.seq fun c S' h => ?_
    obtain ⟨rfl, rfl, hs⟩ := h
    have hc := hnull s (Nat.le_refl s) hs
    split_ifs with hdelimiter
    · refine fun r S' hrun => ?_
      obtain ⟨hS, hfound, hle⟩ := ih (fun q hq => hnull q (by omega)) r S' hrun
      exact ⟨hS, hfound, by omega⟩
    · exact ensures_pure ⟨rfl, rfl, Nat.le_refl s⟩

theorem skipToken_ensures {n s : ℕ} (hnull : NoNull S.page s) :
    Ensures (skipToken n s) S fun r S' => S' = S ∧ s ≤ r := by
  induction n generalizing s with
  | zero => exact ensures_halt
  | succ n ih =>
    refine loadByte_ensures.seq fun c S' h => ?_
    obtain ⟨rfl, rfl, hs⟩ := h
    split_ifs with hdelimiter
    · exact ensures_pure ⟨rfl, Nat.le_refl s⟩
    · refine fun r S' hrun => ?_
      obtain ⟨hS, hle⟩ := ih (fun q hq => hnull q (by omega)) r S' hrun
      exact ⟨hS, by omega⟩

/-- Without a null byte `strtok_r` finds a token, if it returns, and leaves none. -/
theorem strtokR_ensures {s : Option ℕ} {savePtr : ℕ} (hnull : NoNull S.page (s.getD savePtr)) :
    Ensures (strtokR s savePtr) S fun r S' => r.1.isSome = true ∧ NoNull S'.page r.2 := by
  unfold strtokR
  refine (skipDelimiters_ensures hnull).seq fun r S₁ h => ?_
  obtain ⟨token, found⟩ := r
  obtain ⟨rfl, rfl, htoken⟩ := h
  dsimp only
  rw [if_neg (by decide)]
  refine (skipToken_ensures fun q hq => hnull q (Nat.le_trans htoken hq)).seq fun stop S₂ h => ?_
  obtain ⟨rfl, hstop⟩ := h
  refine loadByte_ensures.seq fun c S₃ h => ?_
  obtain ⟨rfl, rfl, hin⟩ := h
  have hc := hnull stop (Nat.le_trans htoken hstop) hin
  rw [if_pos hc]
  have hwrite : Returns (memcpy stop [0]) S₃ fun _ S' => S'.page = store S₃.page stop [0] :=
    memcpy_returns (by rw [List.length_singleton]; omega) rfl
  refine hwrite.ensures.seq fun _ S₄ h => ensures_pure ⟨rfl, fun q hq hq' => ?_⟩
  rw [h, store_of_ge (by rw [List.length_singleton]; exact hq)]
  exact hnull q (by omega) hq'

/-- **A line without its end**: the loop runs out of the page. -/
theorem tokens_never {upage : UInt32} {s : ℕ} (hnull : NoNull S.page s)
    {Q : ℕ → StackPage → Prop} : Ensures (tokens upage s) S Q := by
  have hcollect : ∀ {n argc : ℕ} {token : Option ℕ × ℕ} {S : StackPage},
      token.1.isSome = true ∧ NoNull S.page token.2 →
      Ensures (collect upage n token argc) S Q := by
    intro n
    induction n with
    | zero => exact fun _ => ensures_halt
    | succ n ih =>
      rintro argc ⟨karg, savePtr⟩ S ⟨hsome, hnull⟩
      obtain ⟨k, rfl⟩ := Option.isSome_iff_exists.1 hsome
      have hset : Ensures (setArgument upage argc k) S fun _ S' => S'.page = S.page := by
        unfold setArgument
        split_ifs with hargc
        · exact (returns_modify.2 rfl : Returns _ S fun _ S' => S'.page = S.page).ensures
        · exact ensures_halt
      refine hset.seq fun _ S₁ hpage => ?_
      rw [← hpage] at hnull
      exact (strtokR_ensures hnull).seq fun token S₂ h => ih h
  exact (strtokR_ensures hnull).seq fun token S₁ h => hcollect h

end Userprog
end CS162

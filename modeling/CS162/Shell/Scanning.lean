/-
# The tokenizer on a line in parts

What a turn of `tokenize` does is decided by the mode and a byte (`actionOf`).  `lex` scans a line
with its mode, the bytes collected and the words as the only state; the scanner with its index and its
static buffer does the same (`scan_lex`), so a line that is cut at whitespace outside quotes gives
the words of its parts (`tokenize_append`).

The index into the buffer is below 4095 at the start of every turn, so no turn and no `copy_word`
writes outside the buffer, and a call that does not return has aborted (`tokenize_none_iff`).
-/

import CS162.Shell.Tokenizer

namespace CS162
namespace Shell

/-! ### Scanning without an index -/

/-- What a turn does. -/
inductive Action
  | mode (m : Mode)
  | escape
  | push
  | put

/-- The branch of the loop's body for a byte. -/
def actionOf : Mode → UInt8 → Action
  | .normal, c =>
    if c = 39 then .mode .squote else if c = 34 then .mode .dquote else if c = 92 then .escape
    else if isSpace c then .push else .put
  | .squote, c => if c = 39 then .mode .normal else if c = 92 then .escape else .put
  | .dquote, c => if c = 34 then .mode .normal else if c = 92 then .escape else .put

/-- The mode, the bytes of the word that is not finished, and the words before it. -/
structure Lexed where
  mode : Mode
  word : List UInt8
  words : List (List UInt8)

/-- The rest of a line, from such a state; `none` when the buffer is full. -/
def lex (m : Mode) (w : List UInt8) (ws : List (List UInt8)) : List UInt8 → Option Lexed
  | [] => some ⟨m, w, ws⟩
  | c :: rest =>
    match actionOf m c with
    | .mode m' => lex m' w ws rest
    | .push => lex m [] (pushed ws w) rest
    | .put => if w.length < 4094 then lex m (w ++ [c]) ws rest else none
    | .escape =>
      match rest with
      | [] => some ⟨m, w, ws⟩
      | c' :: rest' => if w.length < 4094 then lex m (w ++ [c']) ws rest' else none

/-- The mode at the end of a line; `none` after a backslash that nothing follows. -/
def endsIn (m : Mode) : List UInt8 → Option Mode
  | [] => some m
  | c :: rest =>
    match actionOf m c with
    | .mode m' => endsIn m' rest
    | .push | .put => endsIn m rest
    | .escape =>
      match rest with
      | [] => none
      | _ :: rest' => endsIn m rest'

/-- **The line ends outside quotes and not in a backslash.** -/
def Closed (line : List UInt8) : Prop := endsIn .normal line = some .normal

/-- The words of a line. -/
def Lexed.all (r : Lexed) : List (List UInt8) := pushed r.words r.word

/-- The words of a line, or none if the buffer is full on the way. -/
def wordsOf (line : List UInt8) : Option (List (List UInt8)) := (lex .normal [] [] line).map Lexed.all

section Lex

variable {m m' : Mode} {w g x y rest : List UInt8} {us ws : List (List UInt8)} {c c' : UInt8} {r : Lexed}

theorem lex_setMode (h : actionOf m c = .mode m') : lex m w ws (c :: rest) = lex m' w ws rest := by
  rw [lex.eq_def]
  dsimp only
  rw [h]

theorem lex_push (h : actionOf m c = .push) :
    lex m w ws (c :: rest) = lex m [] (pushed ws w) rest := by
  rw [lex.eq_def]
  dsimp only
  rw [h]

theorem lex_put (h : actionOf m c = .put) :
    lex m w ws (c :: rest) = if w.length < 4094 then lex m (w ++ [c]) ws rest else none := by
  rw [lex.eq_def]
  dsimp only
  rw [h]

theorem lex_escape (h : actionOf m c = .escape) : lex m w ws (c :: c' :: rest) =
    if w.length < 4094 then lex m (w ++ [c']) ws rest else none := by
  rw [lex.eq_def]
  dsimp only
  rw [h]

theorem lex_dangling (h : actionOf m c = .escape) : lex m w ws [c] = some ⟨m, w, ws⟩ := by
  rw [lex.eq_def]
  dsimp only
  rw [h]

theorem pushed_append : pushed (us ++ ws) w = us ++ pushed ws w := by
  unfold pushed
  split_ifs
  · rfl
  · exact List.append_assoc us ws [w]

/-- **A line in two parts**, the first of which does not end in a backslash. -/
theorem lex_append (hx : endsIn m x = some m') :
    lex m w ws (x ++ y) = (lex m w ws x).bind fun r => lex r.mode r.word r.words y := by
  fun_induction endsIn m x generalizing w ws with
  | case1 m => rfl
  | case2 m c rest m₁ hact ih =>
    rw [List.cons_append, lex_setMode hact, lex_setMode hact]
    exact ih hx
  | case3 m c rest hact ih =>
    rw [List.cons_append, lex_push hact, lex_push hact]
    exact ih hx
  | case4 m c rest hact ih =>
    rw [List.cons_append, lex_put hact, lex_put hact]
    split_ifs
    · exact ih hx
    · rfl
  | case5 m c hact => cases hx
  | case6 m c hact c' rest ih =>
    rw [List.cons_append, List.cons_append, lex_escape hact, lex_escape hact]
    split_ifs
    · exact ih hx
    · rfl

/-- The mode at the end. -/
theorem lex_mode (hx : endsIn m x = some m') (hr : lex m w ws x = some r) : r.mode = m' := by
  fun_induction endsIn m x generalizing w ws with
  | case1 m =>
    cases hx
    cases hr
    rfl
  | case2 m c rest m₁ hact ih =>
    rw [lex_setMode hact] at hr
    exact ih hx hr
  | case3 m c rest hact ih =>
    rw [lex_push hact] at hr
    exact ih hx hr
  | case4 m c rest hact ih =>
    rw [lex_put hact] at hr
    split_ifs at hr
    exact ih hx hr
  | case5 m c hact => cases hx
  | case6 m c hact c' rest ih =>
    rw [lex_escape hact] at hr
    split_ifs at hr
    exact ih hx hr

/-- The words before stay in front. -/
theorem lex_words (us : List (List UInt8)) :
    lex m w (us ++ ws) x = (lex m w ws x).map fun r => { r with words := us ++ r.words } := by
  fun_induction lex m w ws x with
  | case1 m w ws => rfl
  | case2 m w ws c rest m₁ hact ih =>
    rw [lex_setMode hact]
    exact ih
  | case3 m w ws c rest hact ih =>
    rw [lex_push hact, pushed_append]
    exact ih
  | case4 m w ws c rest hact hlt ih =>
    rw [lex_put hact, if_pos hlt]
    exact ih
  | case5 m w ws c rest hact hlt =>
    rw [lex_put hact, if_neg hlt]
    rfl
  | case6 m w ws c hact =>
    rw [lex_dangling hact]
    rfl
  | case7 m w ws c hact c' rest hlt ih =>
    rw [lex_escape hact, if_pos hlt]
    exact ih
  | case8 m w ws c hact c' rest hlt =>
    rw [lex_escape hact, if_neg hlt]
    rfl

theorem actionOf_space (h : isSpace c = true) : actionOf .normal c = .push := by
  have hne : ∀ b, isSpace b = false → c ≠ b := fun b hb heq => by
    rw [heq, hb] at h
    exact Bool.false_ne_true h
  unfold actionOf
  dsimp only
  rw [if_neg (hne 39 (by decide)), if_neg (hne 34 (by decide)), if_neg (hne 92 (by decide)), if_pos h]

/-- Whitespace ends a word. -/
theorem lex_gap (hg : IsGap g) (hne : g ≠ []) :
    lex .normal w ws (g ++ y) = lex .normal [] (pushed ws w) y := by
  induction g generalizing w ws with
  | nil => exact absurd rfl hne
  | cons c g ih =>
    rw [List.cons_append, lex_push (actionOf_space (hg c List.mem_cons_self))]
    cases g with
    | nil => rfl
    | cons d g =>
      rw [ih (fun b hb => hg b (List.mem_cons_of_mem _ hb)) (List.cons_ne_nil d g)]
      rfl

/-- **The words of a line that is cut at whitespace.** -/
theorem wordsOf_append (hx : Closed x) (hg : IsGap g) (hne : g ≠ []) :
    wordsOf (x ++ g ++ y) = (wordsOf x).bind fun us => (wordsOf y).map fun vs => us ++ vs := by
  unfold wordsOf
  rw [List.append_assoc, lex_append hx]
  cases hr : lex .normal [] [] x with
  | none => rfl
  | some r =>
    have hmode := lex_mode hx hr
    rw [Option.bind_some, Option.map_some, Option.bind_some, hmode, lex_gap hg hne]
    have hwords : lex .normal [] (r.all ++ []) y =
        (lex .normal [] [] y).map fun r' => { r' with words := r.all ++ r'.words } := lex_words r.all
    rw [List.append_nil] at hwords
    change (lex .normal [] r.all y).map Lexed.all = _
    rw [hwords, Option.map_map, Option.map_map]
    refine congrArg (fun f => Option.map f _) (funext fun r' => ?_)
    exact pushed_append

end Lex

/-! ### The scanner does the same -/

section Scan

variable {line : List UInt8} {s s₁ s' : Scanner} {m m' : Mode} {w v rest : List UInt8}
  {ws : List (List UInt8)} {c c' : UInt8} {turns : ℕ} {r : Lexed}

/-- The scanner acts by its mode and the byte. -/
theorem scanByte_eq (s : Scanner) (line : List UInt8) (c : UInt8) : s.scanByte line c =
    match actionOf s.mode c with
    | .mode m => some { s with mode := m }
    | .escape => s.backslash line
    | .push => some (if 0 < s.n then s.pushWord else s)
    | .put => s.put c := by
  unfold Scanner.scanByte Scanner.quoted actionOf
  cases s.mode with
  | normal =>
    dsimp only
    split_ifs <;> rfl
  | squote =>
    dsimp only
    split_ifs <;> rfl
  | dquote =>
    dsimp only
    split_ifs <;> rfl

theorem At.byte_lt (h : At line s m w ws (c :: rest)) : s.i < line.length := by
  have hlength := h.length
  rw [List.length_cons] at hlength
  omega

/-- A turn after which the buffer is full. -/
theorem At.aborts (h : At line s m w ws (c :: rest)) (hbyte : s.scanByte line c = some s₁)
    (hfull : 4095 ≤ s₁.n) : scan line turns s = none := by
  cases turns with
  | zero => rfl
  | succ turns =>
    rw [scan, if_pos h.byte_lt, Scanner.turn, h.byte, hbyte, Option.bind_some, Scanner.advance,
      if_pos (by omega)]
    rfl

/-- A byte is put into a buffer with room, or the call aborts. -/
theorem At.putTurn (h : At line s m w ws (c :: rest)) (hline : line.length < 2 ^ 32)
    (hw : w.length ≤ 4094) {v : List UInt8} {rest' : List UInt8}
    (hbyte : s.scanByte line c = some s₁) (h₁ : At line s₁ m (w ++ v) ws (c' :: rest'))
    (hv : v.length = 1) (hi : s.i ≤ s₁.i) :
    (w.length < 4094 → Comes line s m (w ++ v) ws rest') ∧
      (¬w.length < 4094 → ∀ turns, scan line turns s = none) := by
  have hlength : (w ++ v).length = w.length + 1 := by rw [List.length_append, hv]
  constructor
  · exact fun hlt => h.turn hline hbyte h₁ hi (by omega)
  · exact fun hlt turns => h.aborts hbyte (by rw [h₁.n_eq, hlength]; omega)

/-- **The scanner and `lex`**, by induction on what is to come. -/
theorem scan_lex (hline : line.length < 2 ^ 32) (hnull : (0 : UInt8) ∉ line)
    (hat : At line s m w ws rest) (hw : w.length ≤ 4094) (hw0 : (0 : UInt8) ∉ w)
    (hturns : line.length - s.i < turns) :
    (∀ r, lex m w ws rest = some r →
      ∃ s', scan line turns s = some s' ∧ At line s' r.mode r.word r.words [] ∧
        (0 : UInt8) ∉ r.word) ∧
    (lex m w ws rest = none → scan line turns s = none) := by
  -- the scanner comes to the next place
  have hrest : ∀ {b : UInt8}, b ∈ rest → b ≠ 0 := by
    rintro b hb rfl
    exact hnull (List.mem_of_mem_drop (hat.rest ▸ hb))
  fun_induction lex m w ws rest generalizing s turns with
  | case1 m w ws =>
    refine ⟨fun r hr => ?_, fun hr => absurd hr (Option.some_ne_none _)⟩
    cases hr
    have hlast := hat.length
    obtain ⟨turns, rfl⟩ := Nat.exists_eq_succ_of_ne_zero (Nat.ne_zero_of_lt hturns)
    rw [List.length_nil, Nat.add_zero] at hlast
    exact ⟨s, by rw [scan, if_neg (by omega)], hat, hw0⟩
  | case2 m w ws c rest m₁ hact ih =>
    have hbyte : s.scanByte line c = some { s with mode := m₁ } := by
      rw [scanByte_eq, hat.mode, hact]
    obtain ⟨s₁, hpasses, hat₁⟩ := hat.turn hline hbyte (hat.setMode m₁) (Nat.le_refl _) hw
    obtain ⟨turns', hturns', hscan⟩ := hpasses turns hturns
    rw [hscan]
    exact ih hat₁ hw hw0 hturns' fun hb => hrest (List.mem_cons_of_mem _ hb)
  | case3 m w ws c rest hact ih =>
    have hbyte : s.scanByte line c = some (if 0 < s.n then s.pushWord else s) := by
      rw [scanByte_eq, hat.mode, hact]
    obtain ⟨s₁, hpasses, hat₁⟩ :=
      hat.turn hline hbyte (hat.ended hw0) (by split_ifs <;> exact Nat.le_refl _) (Nat.zero_le _)
    obtain ⟨turns', hturns', hscan⟩ := hpasses turns hturns
    rw [hscan]
    exact ih hat₁ (Nat.zero_le _) List.not_mem_nil hturns'
      fun hb => hrest (List.mem_cons_of_mem _ hb)
  | case4 m w ws c rest hact hlt ih =>
    obtain ⟨s₁, hput, hat₁, hi⟩ := hat.put c (by omega)
    have hbyte : s.scanByte line c = some s₁ := by rw [scanByte_eq, hat.mode, hact, hput]
    obtain ⟨s₂, hpasses, hat₂⟩ := (hat.putTurn hline hw hbyte hat₁ rfl hi.ge).1 hlt
    obtain ⟨turns', hturns', hscan⟩ := hpasses turns hturns
    rw [hscan]
    refine ih hat₂ (by rw [List.length_append, List.length_singleton]; omega) ?_ hturns'
      fun hb => hrest (List.mem_cons_of_mem _ hb)
    rw [List.mem_append, List.mem_singleton, not_or]
    exact ⟨hw0, (hrest List.mem_cons_self).symm⟩
  | case5 m w ws c rest hact hlt =>
    obtain ⟨s₁, hput, hat₁, hi⟩ := hat.put c (by omega)
    have hbyte : s.scanByte line c = some s₁ := by rw [scanByte_eq, hat.mode, hact, hput]
    refine ⟨fun r hr => absurd hr.symm (Option.some_ne_none r), fun _ => ?_⟩
    exact (hat.putTurn hline hw hbyte hat₁ rfl hi.ge).2 hlt turns
  | case6 m w ws c hact =>
    refine ⟨fun r hr => ?_, fun hr => absurd hr (Option.some_ne_none _)⟩
    cases hr
    have hlast := hat.length
    rw [List.length_singleton] at hlast
    have hbyte : s.scanByte line c = some s := by
      rw [scanByte_eq, hat.mode, hact]
      dsimp only
      unfold Scanner.backslash
      rw [Nat.mod_eq_of_lt (by omega), if_neg (by omega)]
    obtain ⟨s₁, hpasses, hat₁⟩ := hat.turn hline hbyte hat (Nat.le_refl _) hw
    obtain ⟨turns', hturns', hscan⟩ := hpasses turns hturns
    have hlast₁ := hat₁.length
    rw [List.length_nil, Nat.add_zero] at hlast₁
    obtain ⟨turns', rfl⟩ := Nat.exists_eq_succ_of_ne_zero (Nat.ne_zero_of_lt hturns')
    rw [hscan]
    exact ⟨s₁, by rw [scan, if_neg (by omega)], hat₁, hw0⟩
  | case7 m w ws c hact c' rest hlt ih =>
    obtain ⟨s₁, hback, hat₁, hi⟩ := hat.backslash hline (by omega)
    have hbyte : s.scanByte line c = some s₁ := by rw [scanByte_eq, hat.mode, hact, hback]
    obtain ⟨s₂, hpasses, hat₂⟩ := (hat.putTurn hline hw hbyte hat₁ rfl hi).1 hlt
    obtain ⟨turns', hturns', hscan⟩ := hpasses turns hturns
    rw [hscan]
    refine ih hat₂ (by rw [List.length_append, List.length_singleton]; omega) ?_ hturns'
      fun hb => hrest (List.mem_cons_of_mem _ (List.mem_cons_of_mem _ hb))
    rw [List.mem_append, List.mem_singleton, not_or]
    exact ⟨hw0, (hrest (List.mem_cons_of_mem _ List.mem_cons_self)).symm⟩
  | case8 m w ws c hact c' rest hlt =>
    obtain ⟨s₁, hback, hat₁, hi⟩ := hat.backslash hline (by omega)
    have hbyte : s.scanByte line c = some s₁ := by rw [scanByte_eq, hat.mode, hact, hback]
    refine ⟨fun r hr => absurd hr.symm (Option.some_ne_none r), fun _ => ?_⟩
    exact (hat.putTurn hline hw hbyte hat₁ rfl hi).2 hlt turns

/-- **`tokenize` of a line**, whatever the buffer holds. -/
theorem tokenize_wordsOf (hline : line.length < 2 ^ 32) (hnull : (0 : UInt8) ∉ line)
    (hturns : line.length < turns) (token : ℕ → UInt8) (rest : List UInt8) :
    tokenize turns token (some (line ++ 0 :: rest)) = (wordsOf line).map some := by
  have hstring : (line ++ 0 :: rest).takeWhile (· ≠ 0) = line := takeWhile_null hnull rest
  have hat : At line ⟨0, .normal, token, 0, []⟩ .normal [] [] line :=
    ⟨rfl, rfl, rfl, rfl, Nat.zero_le _⟩
  obtain ⟨hsome, hnone⟩ := scan_lex hline hnull hat (Nat.zero_le _) List.not_mem_nil hturns
  unfold tokenize wordsOf
  dsimp only
  rw [hstring]
  cases hlex : lex .normal [] [] line with
  | none =>
    rw [hnone hlex]
    rfl
  | some r =>
    obtain ⟨s', hscan, hend, hw0⟩ := hsome r hlex
    rw [hscan]
    exact congrArg (some ∘ some) (hend.ended hw0).tokens

/-! ### The buffer -/

/-- The scanner at the start of a turn, or after the last one. -/
inductive Scanning (line : List UInt8) (token : ℕ → UInt8) : Scanner → Prop
  | start : Scanning line token ⟨0, .normal, token, 0, []⟩
  | turn {s s' : Scanner} (h : Scanning line token s) (hi : s.i < line.length)
      (hturn : s.turn line = some s') : Scanning line token s'

/-- Every byte is written inside the buffer, the terminator of `copy_word` at `n` as well. -/
structure InBuffer (line : List UInt8) (s : Scanner) : Prop where
  index : s.n < 4096
  byte : s.i < line.length →
    ∃ s₁, s.scanByte line (line.getD s.i 0) = some s₁ ∧ s₁.n < 4096

/-- The buffer is full after a turn, and `abort` is called. -/
def Aborts (line : List UInt8) (token : ℕ → UInt8) : Prop :=
  ∃ s s₁, Scanning line token s ∧ s.i < line.length ∧
    s.scanByte line (line.getD s.i 0) = some s₁ ∧ 4096 ≤ s₁.n + 1

theorem put_of_lt (h : s.n < 4095) (c : UInt8) :
    ∃ s₁, s.put c = some s₁ ∧ s₁.n < 4096 ∧ s₁.i = s.i := by
  unfold Scanner.put
  rw [if_pos (by omega)]
  exact ⟨_, rfl, by dsimp only; omega, rfl⟩

/-- A turn that starts with room in the buffer. -/
theorem scanByte_of_lt (h : s.n < 4095) (line : List UInt8) (c : UInt8) :
    ∃ s₁, s.scanByte line c = some s₁ ∧ s₁.n < 4096 ∧
      (line.length < 2 ^ 32 → s.i < line.length → s.i ≤ s₁.i ∧ s₁.i < line.length) := by
  rw [scanByte_eq]
  cases actionOf s.mode c with
  | mode m => exact ⟨_, rfl, by dsimp only; omega, fun _ hi => ⟨Nat.le_refl _, hi⟩⟩
  | escape =>
    dsimp only
    unfold Scanner.backslash
    dsimp only
    split_ifs with hnext
    · obtain ⟨s₁, hput, hn, hi₁⟩ := put_of_lt (s := { s with i := (s.i + 1) % 2 ^ 32 }) h
        (line.getD ((s.i + 1) % 2 ^ 32) 0)
      dsimp only at hi₁
      refine ⟨s₁, hput, hn, fun hline hi => ?_⟩
      rw [Nat.mod_eq_of_lt (by omega)] at hnext hi₁
      omega
    · exact ⟨s, rfl, by omega, fun _ hi => ⟨Nat.le_refl _, hi⟩⟩
  | push =>
    dsimp only
    split_ifs
    · exact ⟨_, rfl, Nat.zero_lt_succ _, fun _ hi => ⟨Nat.le_refl _, hi⟩⟩
    · exact ⟨s, rfl, by omega, fun _ hi => ⟨Nat.le_refl _, hi⟩⟩
  | put =>
    obtain ⟨s₁, hput, hn, hi₁⟩ := put_of_lt h c
    exact ⟨s₁, hput, hn, fun _ hi => ⟨hi₁.ge, hi₁ ▸ hi⟩⟩

/-- **The index is below 4095 at the start of every turn.** -/
theorem Scanning.index (h : Scanning line token s) : s.n < 4095 := by
  induction h with
  | start => exact Nat.zero_lt_succ _
  | turn _ _ hturn _ =>
    obtain ⟨s₁, -, hadvance⟩ := Option.bind_eq_some_iff.1 hturn
    unfold Scanner.advance at hadvance
    split_ifs at hadvance with hfull
    cases hadvance
    dsimp only
    omega

theorem Scanning.inBuffer (h : Scanning line token s) : InBuffer line s where
  index := Nat.lt_succ_of_lt h.index
  byte _ := by
    obtain ⟨s₁, hbyte, hn, -⟩ := scanByte_of_lt h.index line (line.getD s.i 0)
    exact ⟨s₁, hbyte, hn⟩

/-- A scan that does not return has aborted, by induction on the turns. -/
theorem Scanning.aborts (h : Scanning line token s) (hline : line.length < 2 ^ 32)
    (hturns : line.length - s.i < turns) (hscan : scan line turns s = none) : Aborts line token := by
  induction turns generalizing s with
  | zero => cases hturns
  | succ turns ih =>
    rw [scan] at hscan
    split_ifs at hscan with hi
    obtain ⟨s₁, hbyte, -, hindex⟩ := scanByte_of_lt h.index line (line.getD s.i 0)
    obtain ⟨hle, hlt⟩ := hindex hline hi
    have hturn : s.turn line = s₁.advance := by rw [Scanner.turn, hbyte, Option.bind_some]
    by_cases hfull : 4096 ≤ s₁.n + 1
    · exact ⟨s, s₁, h, hi, hbyte, hfull⟩
    · have hadvance : s₁.advance = some { s₁ with i := s₁.i + 1 } := by
        unfold Scanner.advance
        rw [if_neg hfull, Nat.mod_eq_of_lt (by omega)]
      rw [hturn, hadvance, Option.bind_some] at hscan
      exact ih (.turn h hi (hturn.trans hadvance)) (by dsimp only; omega) hscan

/-- A scan that has come to a full buffer does not return. -/
theorem Scanning.none_of_full (h : Scanning line token s)
    (hfull : ∀ turns, scan line turns s = none) (turns : ℕ) :
    scan line turns ⟨0, .normal, token, 0, []⟩ = none := by
  induction h generalizing turns with
  | start => exact hfull turns
  | @turn s s' _ hi hturn ih =>
    refine ih (fun turns => ?_) turns
    cases turns with
    | zero => rfl
    | succ turns =>
      rw [scan, if_pos hi, hturn, Option.bind_some]
      exact hfull turns

/-- **`tokenize` does not return if and only if it aborts.** -/
theorem tokenize_none_iff (hline : line.length < 2 ^ 32) (hnull : (0 : UInt8) ∉ line)
    (hturns : line.length < turns) (token : ℕ → UInt8) (rest : List UInt8) :
    tokenize turns token (some (line ++ 0 :: rest)) = none ↔ Aborts line token := by
  have hstring : (line ++ 0 :: rest).takeWhile (· ≠ 0) = line := takeWhile_null hnull rest
  have hscan : tokenize turns token (some (line ++ 0 :: rest)) = none ↔
      scan line turns ⟨0, .normal, token, 0, []⟩ = none := by
    unfold tokenize
    dsimp only
    rw [hstring]
    cases scan line turns ⟨0, .normal, token, 0, []⟩ with
    | none => exact ⟨fun _ => rfl, fun _ => rfl⟩
    | some s => exact ⟨nofun, nofun⟩
  rw [hscan]
  constructor
  · exact fun hnone => Scanning.start.aborts hline hturns hnone
  · rintro ⟨s, s₁, hs, hi, hbyte, hfull⟩
    refine hs.none_of_full (fun turns => ?_) turns
    cases turns with
    | zero => rfl
    | succ turns =>
      rw [scan, if_pos hi, Scanner.turn, hbyte, Option.bind_some, Scanner.advance, if_pos hfull]
      rfl

/-- **Tokenizing is compositional**: a line that is cut at whitespace outside quotes gives the words of
its parts, and aborts if and only if one of them does.  In every scan the buffer is large enough. -/
theorem tokenize_append {a b g : List UInt8} (ha : Closed a) (hg : IsGap g) (hne : g ≠ [])
    (hnull : (0 : UInt8) ∉ a ++ g ++ b) (hlength : (a ++ g ++ b).length < 2 ^ 32)
    (hturns : (a ++ g ++ b).length < turns) (token token₁ token₂ : ℕ → UInt8)
    (rest rest₁ rest₂ : List UInt8) :
    (∀ us vs, tokenize turns token₁ (some (a ++ 0 :: rest₁)) = some (some us) →
      tokenize turns token₂ (some (b ++ 0 :: rest₂)) = some (some vs) →
      tokenize turns token (some (a ++ g ++ b ++ 0 :: rest)) = some (some (us ++ vs))) ∧
    (tokenize turns token (some (a ++ g ++ b ++ 0 :: rest)) = none ↔
      tokenize turns token₁ (some (a ++ 0 :: rest₁)) = none ∨
        tokenize turns token₂ (some (b ++ 0 :: rest₂)) = none) ∧
    (tokenize turns token (some (a ++ g ++ b ++ 0 :: rest)) = none ↔ Aborts (a ++ g ++ b) token) ∧
    ∀ line token s, Scanning line token s → InBuffer line s := by
  have hnulls := hnull
  have hlengths := hlength
  have hturnss := hturns
  rw [List.mem_append, List.mem_append, not_or, not_or] at hnulls
  rw [List.length_append, List.length_append] at hlengths hturnss
  rw [tokenize_wordsOf hlength hnull hturns, tokenize_wordsOf (by omega) hnulls.1.1 (by omega),
    tokenize_wordsOf (by omega) hnulls.2 (by omega), wordsOf_append ha hg hne]
  refine ⟨fun us vs hus hvs => ?_, ?_, ?_, fun _ _ _ h => h.inBuffer⟩
  · obtain ⟨us', hus', heq⟩ := Option.map_eq_some_iff.1 hus
    obtain ⟨vs', hvs', heq'⟩ := Option.map_eq_some_iff.1 hvs
    cases heq
    cases heq'
    rw [hus', hvs']
    rfl
  · cases wordsOf a with
    | none => exact ⟨fun _ => .inl rfl, fun _ => rfl⟩
    | some us =>
      cases wordsOf b with
      | none => exact ⟨fun _ => .inr rfl, fun _ => rfl⟩
      | some vs =>
        constructor
        · exact nofun
        · rintro (h | h) <;> cases h
  · rw [← wordsOf_append ha hg hne, ← tokenize_wordsOf hlength hnull hturns token rest]
    exact tokenize_none_iff hlength hnull hturns token rest

/-- The two parts of `'a b' c`. -/
theorem tokenize_append_quoted : tokenize 9 (fun _ => 7)
    (some ([39, 97, 32, 98, 39] ++ [32] ++ [99] ++ 0 :: [])) = some (some [[97, 32, 98], [99]]) := by
  have hclosed : Closed [39, 97, 32, 98, 39] := by
    unfold Closed
    decide
  have hgap : IsGap [32] := by
    intro c hc
    rw [List.mem_singleton.1 hc]
    decide
  have hturns : ([39, 97, 32, 98, 39] ++ [32] ++ [99] : List UInt8).length < 9 := by decide
  have happend := tokenize_append hclosed hgap (by decide) (by decide) (by decide) hturns
    (fun _ => 7) (fun _ => 0) (fun _ => 0) [] [] []
  exact happend.1 [[97, 32, 98]] [[99]] (by decide) (by decide)

end Scan

end Shell
end CS162

/-
# The shell's tokenizer

`hw-shell/tokenizer.c`, lines 20-97: `copy_word` and `tokenize`.

A line is scanned in three modes, and the bytes of a token are collected in a static
buffer of 4096 bytes.  A call that aborts, or writes outside the buffer, does not return;
`malloc` and `realloc` are met.  `i` is an `unsigned int`, so a line of `2 ^ 32` bytes or
more is scanned for ever: the loop has a number of turns.

`Written` says in which ways a token can be written, and `Line` in which ways a list of
tokens can (`tokenize_line`).
-/

import Mathlib.Algebra.Group.Nat.Defs
import Mathlib.Data.List.TakeWhile
import Mathlib.Logic.Relation
import Mathlib.Tactic.Common

namespace CS162
namespace Shell

/-- `isspace` of ASCII. -/
def isSpace (c : UInt8) : Bool := c = 32 ∨ 9 ≤ c ∧ c ≤ 13

/-! ### `tokenize` -/

inductive Mode
  | normal
  | squote
  | dquote
deriving DecidableEq

/-- The local variables of `tokenize`. -/
structure Scanner where
  i : ℕ
  mode : Mode
  /-- `token`, of 4096 bytes. -/
  token : ℕ → UInt8
  n : ℕ
  /-- The words pushed to `tokens`. -/
  tokens : List (List UInt8)

/-- The string in the first bytes of a buffer. -/
def stringIn (buffer : ℕ → UInt8) (size : ℕ) : List UInt8 :=
  ((List.range size).map buffer).takeWhile (· ≠ 0)

/-- `copy_word` and `vector_push`. -/
def Scanner.pushWord (s : Scanner) : Scanner :=
  { s with
    token := Function.update s.token s.n 0
    tokens := s.tokens ++ [stringIn (Function.update s.token s.n 0) (s.n + 1)]
    n := 0 }

/-- `token[n++] = c`. -/
def Scanner.put (s : Scanner) (c : UInt8) : Option Scanner :=
  if s.n < 4096 then some { s with token := Function.update s.token s.n c, n := s.n + 1 }
  else none

/-- A backslash: the byte after it goes into the token, if there is one. -/
def Scanner.backslash (s : Scanner) (line : List UInt8) : Option Scanner :=
  let next := (s.i + 1) % 2 ^ 32
  if next < line.length then { s with i := next }.put (line.getD next 0) else some s

/-- A byte `c` between quotes `quote`. -/
def Scanner.quoted (s : Scanner) (line : List UInt8) (quote c : UInt8) : Option Scanner :=
  if c = quote then some { s with mode := .normal }
  else if c = 92 then s.backslash line
  else s.put c

/-- The body of the loop of `tokenize`, for the byte `c` at `i`. -/
def Scanner.scanByte (s : Scanner) (line : List UInt8) (c : UInt8) : Option Scanner :=
  match s.mode with
  | .normal =>
    if c = 39 then some { s with mode := .squote }
    else if c = 34 then some { s with mode := .dquote }
    else if c = 92 then s.backslash line
    else if isSpace c then some (if 0 < s.n then s.pushWord else s)
    else s.put c
  | .squote => s.quoted line 39 c
  | .dquote => s.quoted line 34 c

/-- The end of a turn, which aborts where the buffer is full. -/
def Scanner.advance (s : Scanner) : Option Scanner :=
  if 4096 ≤ s.n + 1 then none else some { s with i := (s.i + 1) % 2 ^ 32 }

def Scanner.turn (s : Scanner) (line : List UInt8) : Option Scanner :=
  (s.scanByte line (line.getD s.i 0)).bind Scanner.advance

/-- The loop of `tokenize`. -/
def scan (line : List UInt8) : ℕ → Scanner → Option Scanner
  | 0, _ => none
  | turns + 1, s => if s.i < line.length then (s.turn line).bind (scan line turns) else some s

/-- `tokenize` of what is in memory at `line`, with what the buffer holds. -/
def tokenize (turns : ℕ) (token : ℕ → UInt8) (line : Option (List UInt8)) :
    Option (Option (List (List UInt8))) :=
  match line with
  | none => some none
  | some memory => do
    let s ← scan (memory.takeWhile (· ≠ 0)) turns ⟨0, .normal, token, 0, []⟩
    return some (if 0 < s.n then s.pushWord else s).tokens

/-! ### Ways of writing tokens -/

/-- Bytes as they are written between two quotes. -/
inductive Quoted (quote : UInt8) : List UInt8 → List UInt8 → Prop
  | nil : Quoted quote [] []
  | plain {c : UInt8} {w t : List UInt8} : c ≠ quote → c ≠ 92 → Quoted quote w t →
      Quoted quote (c :: w) (c :: t)
  | escaped {c : UInt8} {w t : List UInt8} : Quoted quote w t → Quoted quote (c :: w) (92 :: c :: t)

/-- **A way of writing a token**: bare characters, escaped ones and quoted segments. -/
inductive Written : List UInt8 → List UInt8 → Prop
  | nil : Written [] []
  | bare {c : UInt8} {w t : List UInt8} : isSpace c = false → c ≠ 39 → c ≠ 34 → c ≠ 92 →
      Written w t → Written (c :: w) (c :: t)
  | escaped {c : UInt8} {w t : List UInt8} : Written w t → Written (c :: w) (92 :: c :: t)
  | quoted {quote : UInt8} {v u w t : List UInt8} : quote = 39 ∨ quote = 34 → Quoted quote v u →
      Written w t → Written (v ++ w) (quote :: u ++ quote :: t)

/-- Whitespace. -/
def IsGap (g : List UInt8) : Prop := ∀ c ∈ g, isSpace c = true

/-- **A way of writing a list of tokens**: whitespace between two of them, and around them. -/
inductive Line : List (List UInt8) → List UInt8 → Prop
  | blank {g : List UInt8} : IsGap g → Line [] g
  | last {g w t g' : List UInt8} : IsGap g → Written w t → IsGap g' → Line [w] (g ++ t ++ g')
  | word {g w t : List UInt8} {c : UInt8} {ws : List (List UInt8)} {rest : List UInt8} : IsGap g →
      Written w t → isSpace c = true → Line ws rest → Line (w :: ws) (g ++ t ++ c :: rest)

/-- A token that `tokenize` can return. -/
structure IsToken (w : List UInt8) : Prop where
  ne_nil : w ≠ []
  null : (0 : UInt8) ∉ w
  length : w.length ≤ 4094

/-! ### Null bytes -/

/-- The string before a null byte. -/
theorem takeWhile_null {w : List UInt8} (h : (0 : UInt8) ∉ w) (rest : List UInt8) :
    (w ++ 0 :: rest).takeWhile (· ≠ 0) = w := by
  have hw : ∀ b ∈ w, decide (b ≠ 0) = true := by
    intro b hb
    refine decide_eq_true ?_
    rintro rfl
    exact h hb
  rw [List.takeWhile_append_of_pos hw, List.takeWhile_cons_of_neg (by decide), List.append_nil]

theorem ne_zero_of_isSpace {c : UInt8} (h : isSpace c = true) : c ≠ 0 := by
  rintro rfl
  exact absurd h (by decide)

theorem IsGap.null {g : List UInt8} (h : IsGap g) : (0 : UInt8) ∉ g := fun hmem =>
  ne_zero_of_isSpace (h 0 hmem) rfl

theorem Quoted.null {quote : UInt8} {w t : List UInt8} (h : Quoted quote w t) (hw : (0 : UInt8) ∉ w) :
    (0 : UInt8) ∉ t := by
  induction h with
  | nil => exact List.not_mem_nil
  | plain _ _ _ ih =>
    rw [List.mem_cons, not_or] at hw ⊢
    exact ⟨hw.1, ih hw.2⟩
  | escaped _ ih =>
    rw [List.mem_cons, not_or] at hw
    rw [List.mem_cons, List.mem_cons, not_or, not_or]
    exact ⟨by decide, hw.1, ih hw.2⟩

theorem Written.null {w t : List UInt8} (h : Written w t) (hw : (0 : UInt8) ∉ w) :
    (0 : UInt8) ∉ t := by
  induction h with
  | nil => exact List.not_mem_nil
  | bare _ _ _ _ _ ih =>
    rw [List.mem_cons, not_or] at hw ⊢
    exact ⟨hw.1, ih hw.2⟩
  | escaped _ ih =>
    rw [List.mem_cons, not_or] at hw
    rw [List.mem_cons, List.mem_cons, not_or, not_or]
    exact ⟨by decide, hw.1, ih hw.2⟩
  | @quoted quote v u w t hquote hq _ ih =>
    rw [List.mem_append, not_or] at hw
    have hne : 0 ≠ quote := by
      rintro rfl
      exact absurd hquote (by decide)
    rw [List.mem_append, List.mem_cons, List.mem_cons, not_or, not_or, not_or]
    exact ⟨⟨hne, hq.null hw.1⟩, hne, ih hw.2⟩

theorem Line.null {ws : List (List UInt8)} {line : List UInt8} (h : Line ws line)
    (hws : ∀ w ∈ ws, (0 : UInt8) ∉ w) : (0 : UInt8) ∉ line := by
  induction h with
  | blank hg => exact hg.null
  | last hg ht hg' =>
    rw [List.mem_append, List.mem_append, not_or, not_or]
    exact ⟨⟨hg.null, ht.null (hws _ List.mem_cons_self)⟩, hg'.null⟩
  | word hg ht hc _ ih =>
    rw [List.mem_append, List.mem_append, List.mem_cons, not_or, not_or, not_or]
    exact ⟨⟨hg.null, ht.null (hws _ List.mem_cons_self)⟩, (ne_zero_of_isSpace hc).symm,
      ih fun w hw => hws w (List.mem_cons_of_mem _ hw)⟩

/-! ### The scanner on a line -/

/-- **The scanner in the middle of a line**: `rest` is to come, the buffer begins with `w`, and
`ws` were pushed. -/
structure At (line : List UInt8) (s : Scanner) (m : Mode) (w : List UInt8)
    (ws : List (List UInt8)) (rest : List UInt8) : Prop where
  mode : s.mode = m
  word : (List.range s.n).map s.token = w
  tokens : s.tokens = ws
  rest : line.drop s.i = rest
  index : s.i ≤ line.length

/-- Turns lead from one state to another, which is further on. -/
def Passes (line : List UInt8) (s s' : Scanner) : Prop :=
  ∀ turns, line.length - s.i < turns →
    ∃ turns', line.length - s'.i < turns' ∧ scan line turns s = scan line turns' s'

/-- The scanner comes to such a place. -/
def Comes (line : List UInt8) (s : Scanner) (m : Mode) (w : List UInt8) (ws : List (List UInt8))
    (rest : List UInt8) : Prop :=
  ∃ s', Passes line s s' ∧ At line s' m w ws rest

section Scan

variable {line : List UInt8} {s s₁ s' : Scanner} {m m' : Mode} {w v u t g rest rest' : List UInt8}
  {ws ws' : List (List UInt8)} {c c' quote : UInt8}

theorem Passes.trans (h : Passes line s s₁) (h₁ : Passes line s₁ s') : Passes line s s' := by
  intro turns hturns
  obtain ⟨turns₁, hturns₁, hscan⟩ := h turns hturns
  obtain ⟨turns', hturns', hscan₁⟩ := h₁ turns₁ hturns₁
  exact ⟨turns', hturns', hscan.trans hscan₁⟩

theorem At.comes (h : At line s m w ws rest) : Comes line s m w ws rest :=
  ⟨s, fun turns hturns => ⟨turns, hturns, rfl⟩, h⟩

/-- **Sequencing.** -/
theorem Comes.seq (h : Comes line s m w ws rest)
    (h₁ : ∀ s₁, At line s₁ m w ws rest → Comes line s₁ m' v ws' rest') :
    Comes line s m' v ws' rest' := by
  obtain ⟨s₁, hpasses, hat⟩ := h
  obtain ⟨s', hpasses₁, hat'⟩ := h₁ s₁ hat
  exact ⟨s', hpasses.trans hpasses₁, hat'⟩

theorem At.n_eq (h : At line s m w ws rest) : s.n = w.length := by
  rw [← h.word, List.length_map, List.length_range]

theorem At.length (h : At line s m w ws rest) : s.i + rest.length = line.length := by
  rw [← h.rest, List.length_drop]
  exact Nat.add_sub_cancel' h.index

theorem At.byte (h : At line s m w ws (c :: rest)) : line.getD s.i 0 = c := by
  have hget := congrArg (fun l => l.getD 0 0) h.rest
  simpa using hget

theorem At.tail (h : At line s m w ws (c :: rest)) : line.drop (s.i + 1) = rest := by
  rw [← List.drop_drop, h.rest]
  rfl

theorem At.setMode (h : At line s m w ws rest) (m' : Mode) :
    At line { s with mode := m' } m' w ws rest :=
  ⟨rfl, h.word, h.tokens, h.rest, h.index⟩

/-- `token[n++] = c`. -/
theorem At.put (h : At line s m w ws rest) (c : UInt8) (hw : w.length < 4096) :
    ∃ s', s.put c = some s' ∧ At line s' m (w ++ [c]) ws rest ∧ s'.i = s.i := by
  have hn := h.n_eq
  unfold Scanner.put
  rw [if_pos (by omega)]
  refine ⟨_, rfl, ⟨h.mode, ?_, h.tokens, h.rest, h.index⟩, rfl⟩
  show (List.range (s.n + 1)).map (Function.update s.token s.n c) = w ++ [c]
  rw [List.range_succ, List.map_append, List.map_singleton, Function.update_self, ← h.word]
  refine congrArg (· ++ [c]) (List.map_congr_left fun k hk => ?_)
  exact Function.update_of_ne (Nat.ne_of_lt (List.mem_range.1 hk)) ..

/-- A backslash, and the byte behind it. -/
theorem At.backslash (h : At line s m w ws (c :: c' :: rest)) (hline : line.length < 2 ^ 32)
    (hw : w.length < 4096) :
    ∃ s', s.backslash line = some s' ∧ At line s' m (w ++ [c']) ws (c' :: rest) ∧ s.i ≤ s'.i := by
  have hlength := h.length
  rw [List.length_cons, List.length_cons] at hlength
  have hnext : (s.i + 1) % 2 ^ 32 = s.i + 1 := Nat.mod_eq_of_lt (by omega)
  have hat : At line { s with i := s.i + 1 } m w ws (c' :: rest) :=
    ⟨h.mode, h.word, h.tokens, h.tail, by show s.i + 1 ≤ _; omega⟩
  obtain ⟨s', hput, hat', hi⟩ := hat.put c' hw
  unfold Scanner.backslash
  dsimp only
  rw [hnext, if_pos (by omega), show line.getD (s.i + 1) 0 = c' from hat.byte]
  exact ⟨s', hput, hat', by rw [hi]; exact Nat.le_succ _⟩

/-- `copy_word`. -/
theorem At.pushWord (h : At line s m w ws rest) (hw : (0 : UInt8) ∉ w) :
    At line s.pushWord m [] (ws ++ [w]) rest := by
  refine ⟨h.mode, rfl, ?_, h.rest, h.index⟩
  show s.tokens ++ [stringIn (Function.update s.token s.n 0) (s.n + 1)] = ws ++ [w]
  have hbefore : (List.range s.n).map (Function.update s.token s.n 0) = w := by
    rw [← h.word]
    refine List.map_congr_left fun k hk => ?_
    exact Function.update_of_ne (Nat.ne_of_lt (List.mem_range.1 hk)) ..
  rw [h.tokens, stringIn, List.range_succ, List.map_append, hbefore, List.map_singleton,
    Function.update_self, takeWhile_null hw]

/-- **A turn of the loop**, whose body leaves the scanner before the rest. -/
theorem At.turn (h : At line s m w ws (c :: rest)) (hline : line.length < 2 ^ 32)
    (hbyte : s.scanByte line c = some s₁) (h₁ : At line s₁ m' v ws' (c' :: rest'))
    (hi : s.i ≤ s₁.i) (hv : v.length ≤ 4094) : Comes line s m' v ws' rest' := by
  have hlength := h.length
  have hlength₁ := h₁.length
  have hn := h₁.n_eq
  rw [List.length_cons] at hlength hlength₁
  have hadvance : s₁.advance = some { s₁ with i := s₁.i + 1 } := by
    unfold Scanner.advance
    rw [if_neg (by omega), Nat.mod_eq_of_lt (by omega)]
  refine ⟨{ s₁ with i := s₁.i + 1 }, fun turns hturns => ?_,
    ⟨h₁.mode, h₁.word, h₁.tokens, h₁.tail, by show s₁.i + 1 ≤ _; omega⟩⟩
  obtain ⟨turns, rfl⟩ := Nat.exists_eq_succ_of_ne_zero (Nat.ne_zero_of_lt hturns)
  refine ⟨turns, by show line.length - (s₁.i + 1) < turns; omega, ?_⟩
  rw [scan, if_pos (by omega), Scanner.turn, h.byte, hbyte, Option.bind_some, hadvance,
    Option.bind_some]

/-! ### Bytes in each mode -/

/-- The mode between quotes. -/
def modeOf (quote : UInt8) : Mode := if quote = 39 then .squote else .dquote

theorem scanByte_quoted (hquote : quote = 39 ∨ quote = 34) (hm : s.mode = modeOf quote) (c : UInt8) :
    s.scanByte line c = s.quoted line quote c := by
  unfold Scanner.scanByte
  rw [hm]
  rcases hquote with rfl | rfl <;> rfl

theorem At.opening (h : At line s .normal w ws (quote :: rest)) (hline : line.length < 2 ^ 32)
    (hquote : quote = 39 ∨ quote = 34) (hw : w.length ≤ 4094) :
    Comes line s (modeOf quote) w ws rest := by
  refine h.turn hline ?_ (h.setMode (modeOf quote)) (Nat.le_refl _) hw
  unfold Scanner.scanByte
  rw [h.mode]
  rcases hquote with rfl | rfl <;> rfl

theorem At.closing (h : At line s (modeOf quote) w ws (quote :: rest)) (hline : line.length < 2 ^ 32)
    (hquote : quote = 39 ∨ quote = 34) (hw : w.length ≤ 4094) : Comes line s .normal w ws rest := by
  refine h.turn hline ?_ (h.setMode .normal) (Nat.le_refl _) hw
  rw [scanByte_quoted hquote h.mode, Scanner.quoted, if_pos rfl]

theorem At.plain (h : At line s (modeOf quote) w ws (c :: rest)) (hline : line.length < 2 ^ 32)
    (hquote : quote = 39 ∨ quote = 34) (hc : c ≠ quote) (hc' : c ≠ 92) (hw : w.length < 4094) :
    Comes line s (modeOf quote) (w ++ [c]) ws rest := by
  obtain ⟨s', hput, hat, hi⟩ := h.put c (by omega)
  refine h.turn hline ?_ hat hi.ge (by rw [List.length_append, List.length_singleton]; omega)
  rw [scanByte_quoted hquote h.mode, Scanner.quoted, if_neg hc, if_neg hc', hput]

/-- In every mode a backslash takes the byte behind it into the token. -/
theorem At.escaped (h : At line s m w ws (92 :: c :: rest)) (hline : line.length < 2 ^ 32)
    (hw : w.length < 4094) : Comes line s m (w ++ [c]) ws rest := by
  obtain ⟨s', hbackslash, hat, hi⟩ := h.backslash hline (by omega)
  refine h.turn hline ?_ hat hi (by rw [List.length_append, List.length_singleton]; omega)
  unfold Scanner.scanByte Scanner.quoted
  cases s.mode <;> exact hbackslash

theorem At.bare (h : At line s .normal w ws (c :: rest)) (hline : line.length < 2 ^ 32)
    (hspace : isSpace c = false) (h₁ : c ≠ 39) (h₂ : c ≠ 34) (h₃ : c ≠ 92) (hw : w.length < 4094) :
    Comes line s .normal (w ++ [c]) ws rest := by
  obtain ⟨s', hput, hat, hi⟩ := h.put c (by omega)
  refine h.turn hline ?_ hat hi.ge (by rw [List.length_append, List.length_singleton]; omega)
  unfold Scanner.scanByte
  rw [h.mode]
  dsimp only
  rw [if_neg h₁, if_neg h₂, if_neg h₃, hspace, if_neg Bool.false_ne_true, hput]

/-- The words after a space: the one that the buffer begins with is one of them. -/
def pushed (ws : List (List UInt8)) (w : List UInt8) : List (List UInt8) :=
  if w = [] then ws else ws ++ [w]

theorem At.ended (h : At line s m w ws rest) (hw : (0 : UInt8) ∉ w) :
    At line (if 0 < s.n then s.pushWord else s) m [] (pushed ws w) rest := by
  unfold pushed
  by_cases hnil : w = []
  · subst hnil
    rw [if_neg (by rw [h.n_eq]; exact Nat.lt_irrefl 0), if_pos rfl]
    exact h
  · rw [if_pos (by rw [h.n_eq]; exact List.length_pos_iff.2 hnil), if_neg hnil]
    exact h.pushWord hw

theorem At.space (h : At line s .normal w ws (c :: rest)) (hline : line.length < 2 ^ 32)
    (hspace : isSpace c = true) (hw : (0 : UInt8) ∉ w) :
    Comes line s .normal [] (pushed ws w) rest := by
  refine h.turn hline ?_ (h.ended hw) ?_ (Nat.zero_le _)
  · have hne : ∀ b, isSpace b = false → c ≠ b := fun b hb heq => by
      rw [heq, hb] at hspace
      exact Bool.false_ne_true hspace
    unfold Scanner.scanByte
    rw [h.mode]
    dsimp only
    rw [if_neg (hne 39 (by decide)), if_neg (hne 34 (by decide)), if_neg (hne 92 (by decide)),
      if_pos hspace]
  · split
    · exact Nat.le_refl _
    · exact Nat.le_refl _

/-! ### Lines -/

/-- A quoted part is scanned to its closing quote. -/
theorem Quoted.comes (h : Quoted quote v u) (hquote : quote = 39 ∨ quote = 34)
    (hline : line.length < 2 ^ 32) (hat : At line s (modeOf quote) w ws (u ++ rest))
    (hw : (w ++ v).length ≤ 4094) : Comes line s (modeOf quote) (w ++ v) ws rest := by
  induction h generalizing s w with
  | nil =>
    rw [List.append_nil]
    exact hat.comes
  | @plain c v u hc hc' _ ih =>
    rw [List.length_append, List.length_cons] at hw
    refine (hat.plain hline hquote hc hc' (by omega)).seq fun s₁ h₁ => ?_
    rw [List.append_cons]
    exact ih h₁ (by simp only [List.length_append, List.length_singleton]; omega)
  | @escaped c v u _ ih =>
    rw [List.length_append, List.length_cons] at hw
    refine (hat.escaped hline (by omega)).seq fun s₁ h₁ => ?_
    rw [List.append_cons]
    exact ih h₁ (by simp only [List.length_append, List.length_singleton]; omega)

/-- **A token, however it is written.** -/
theorem Written.comes (h : Written v t) (hline : line.length < 2 ^ 32)
    (hat : At line s .normal w ws (t ++ rest)) (hw : (w ++ v).length ≤ 4094) :
    Comes line s .normal (w ++ v) ws rest := by
  induction h generalizing s w with
  | nil =>
    rw [List.append_nil]
    exact hat.comes
  | @bare c v t hspace h₁ h₂ h₃ _ ih =>
    rw [List.length_append, List.length_cons] at hw
    refine (hat.bare hline hspace h₁ h₂ h₃ (by omega)).seq fun s₁ hat₁ => ?_
    rw [List.append_cons]
    exact ih hat₁ (by simp only [List.length_append, List.length_singleton]; omega)
  | @escaped c v t _ ih =>
    rw [List.length_append, List.length_cons] at hw
    refine (hat.escaped hline (by omega)).seq fun s₁ hat₁ => ?_
    rw [List.append_cons]
    exact ih hat₁ (by simp only [List.length_append, List.length_singleton]; omega)
  | @quoted quote v u v' t hquote hq _ ih =>
    rw [List.length_append, List.length_append] at hw
    rw [List.cons_append, List.cons_append, List.append_assoc, List.cons_append] at hat
    refine (hat.opening hline hquote (by omega)).seq fun s₁ hat₁ => ?_
    refine (hq.comes hquote hline hat₁ (by rw [List.length_append]; omega)).seq fun s₂ hat₂ => ?_
    refine (hat₂.closing hline hquote (by rw [List.length_append]; omega)).seq fun s₃ hat₃ => ?_
    rw [← List.append_assoc]
    exact ih hat₃ (by rw [List.length_append, List.length_append]; omega)

/-- Whitespace, with nothing in the buffer. -/
theorem IsGap.comes (h : IsGap g) (hline : line.length < 2 ^ 32)
    (hat : At line s .normal [] ws (g ++ rest)) : Comes line s .normal [] ws rest := by
  induction g generalizing s with
  | nil => exact hat.comes
  | cons c g ih =>
    refine (hat.space hline (h c List.mem_cons_self) List.not_mem_nil).seq fun s₁ h₁ => ?_
    exact ih (fun b hb => h b (List.mem_cons_of_mem _ hb)) h₁

/-- Whitespace after a token, or the end of the line. -/
theorem IsGap.comes_end (h : IsGap g) (hline : line.length < 2 ^ 32)
    (hat : At line s .normal w ws g) (hw : (0 : UInt8) ∉ w) :
    ∃ w' ws', Comes line s .normal w' ws' [] ∧ (0 : UInt8) ∉ w' ∧ pushed ws' w' = pushed ws w := by
  match g, h with
  | [], _ => exact ⟨w, ws, hat.comes, hw, rfl⟩
  | c :: g, h =>
    refine ⟨[], pushed ws w, ?_, List.not_mem_nil, if_pos rfl⟩
    refine (hat.space hline (h c List.mem_cons_self) hw).seq fun s₁ h₁ => ?_
    rw [← List.append_nil g] at h₁
    exact IsGap.comes (fun b hb => h b (List.mem_cons_of_mem _ hb)) hline h₁

/-- **A line of tokens.** -/
theorem Line.comes {vs : List (List UInt8)} (h : Line vs t) (hline : line.length < 2 ^ 32)
    (hvs : ∀ v ∈ vs, IsToken v) (hat : At line s .normal [] ws t) :
    ∃ w' ws', Comes line s .normal w' ws' [] ∧ (0 : UInt8) ∉ w' ∧ pushed ws' w' = ws ++ vs := by
  induction h generalizing s ws with
  | @blank g hg =>
    obtain ⟨w', ws', hcomes, hnull, hpushed⟩ := hg.comes_end hline hat List.not_mem_nil
    exact ⟨w', ws', hcomes, hnull, by rw [hpushed, List.append_nil]; rfl⟩
  | @last g v t g' hg ht hg' =>
    have hv := hvs v List.mem_cons_self
    rw [List.append_assoc] at hat
    have hword := (hg.comes hline hat).seq fun s₁ hat₁ => ht.comes hline hat₁ hv.length
    obtain ⟨s₂, hpasses, hat₂⟩ := hword
    obtain ⟨w', ws', ⟨s₃, hpasses₃, hat₃⟩, hnull, hpushed⟩ := hg'.comes_end hline hat₂ hv.null
    exact ⟨w', ws', ⟨s₃, hpasses.trans hpasses₃, hat₃⟩, hnull, hpushed.trans (if_neg hv.ne_nil)⟩
  | @word g v t c vs rest hg ht hc _ ih =>
    have hv := hvs v List.mem_cons_self
    rw [List.append_assoc] at hat
    have hword := (hg.comes hline hat).seq fun s₁ hat₁ => ht.comes hline hat₁ hv.length
    obtain ⟨s₂, hpasses, hat₂⟩ := hword.seq fun s₁ hat₁ => hat₁.space hline hc hv.null
    rw [show pushed ws ([] ++ v) = ws ++ [v] from if_neg hv.ne_nil] at hat₂
    obtain ⟨w', ws', ⟨s₃, hpasses₃, hat₃⟩, hnull, hpushed⟩ :=
      ih (fun u hu => hvs u (List.mem_cons_of_mem _ hu)) hat₂
    refine ⟨w', ws', ⟨s₃, hpasses.trans hpasses₃, hat₃⟩, hnull, ?_⟩
    rw [hpushed, ← List.append_cons]

/-- **Round trip**: `tokenize` of a line that writes tokens returns them, whatever way they are
written in. -/
theorem tokenize_line {ws : List (List UInt8)} {line : List UInt8} (hline : Line ws line)
    (hws : ∀ w ∈ ws, IsToken w) (hlength : line.length < 2 ^ 32) {turns : ℕ}
    (hturns : line.length < turns) (token : ℕ → UInt8) (rest : List UInt8) :
    tokenize turns token (some (line ++ 0 :: rest)) = some (some ws) := by
  have hnull := hline.null fun w hw => (hws w hw).null
  have hstring : (line ++ 0 :: rest).takeWhile (· ≠ 0) = line := takeWhile_null hnull rest
  have hat : At line ⟨0, .normal, token, 0, []⟩ .normal [] [] line :=
    ⟨rfl, rfl, rfl, rfl, Nat.zero_le _⟩
  obtain ⟨w, ws', ⟨s, hpasses, hend⟩, hw, hpushed⟩ := hline.comes hlength hws hat
  obtain ⟨turns', hturns', hscan⟩ := hpasses turns hturns
  have hlast := hend.length
  obtain ⟨turns', rfl⟩ := Nat.exists_eq_succ_of_ne_zero (Nat.ne_zero_of_lt hturns')
  rw [List.length_nil, Nat.add_zero] at hlast
  rw [scan, if_neg (by omega)] at hscan
  unfold tokenize
  dsimp only
  rw [hstring, hscan]
  exact congrArg (some ∘ some) ((hend.ended hw).tokens.trans hpushed)

/-- The line `a 'b c'`: the second token keeps its blank. -/
theorem tokenize_line_quoted : tokenize 8 (fun _ => 0)
    (some ([97, 32, 39, 98, 32, 99, 39] ++ 0 :: [])) = some (some [[97], [98, 32, 99]]) := by
  have hgap : IsGap [] := fun _ h => absurd h List.not_mem_nil
  have hbare : Written [97] [97] := .bare rfl (by decide) (by decide) (by decide) .nil
  have hquoted : Quoted 39 [98, 32, 99] [98, 32, 99] :=
    .plain (by decide) (by decide) (.plain (by decide) (by decide) (.plain (by decide) (by decide) .nil))
  have hline : Line [[97], [98, 32, 99]] [97, 32, 39, 98, 32, 99, 39] :=
    .word hgap hbare rfl (.last hgap (.quoted (.inl rfl) hquoted .nil) hgap)
  refine tokenize_line hline (fun w hw => ?_) (by decide) (by decide) _ _
  rcases List.mem_cons.1 hw with rfl | hw
  · exact ⟨by decide, by decide, by decide⟩
  · rw [List.mem_singleton.1 hw]
    exact ⟨by decide, by decide, by decide⟩

end Scan

end Shell
end CS162

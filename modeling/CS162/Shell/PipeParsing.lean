/-
# The commands of a pipeline

`hw-shell/shell.c`, lines 223-264 and 274-297: how `run_command_with_pipes` finds the commands in
the tokens of a line, their arguments and their redirections.

`int`s are natural numbers but for the positions of redirections, which begin at -2.  An access
outside the arguments' array does not return.

In the tokens of a pipeline (`Segment`) every command gets its words, and a null pointer behind them
(`forkCommands_segments`).
-/

import Mathlib.Algebra.Order.Group.Nat
import Mathlib.Data.List.Basic

namespace CS162
namespace Shell

abbrev Token := List UInt8

/-- `"|"`, `"<"` and `">"`. -/
def bar : Token := [124]
def less : Token := [60]
def greater : Token := [62]

/-! ### `run_command_with_pipes` -/

/-- The local variables of a turn, at the end of its `while` loop. -/
structure Redirects where
  inputRedirect : ℤ
  outputRedirect : ℤ
  inputFile : Option Token
  outputFile : Option Token
  commandIndex : ℕ

/-- A command that is forked. -/
structure Command where
  /-- The tokens from `start` up to `stop` are the command's. -/
  start : ℕ
  stop : ℕ
  args : List (Option Token)
  /-- The files that the child opens for its standard input and output. -/
  input : Option Token
  output : Option Token
deriving DecidableEq

/-- `num_commands`. -/
def numCommands (tokens : List Token) : ℕ := tokens.count bar + 1

/-- The `while` loop over the tokens of a command. -/
def scanCommand (tokens : List Token) : ℕ → Redirects → Option Redirects
  | 0, _ => none
  | turns + 1, s =>
    match tokens[s.commandIndex]? with
    | none => some s
    | some token =>
      if token = bar then some s
      else if token = less then
        scanCommand tokens turns { s with
          inputRedirect := s.commandIndex
          inputFile := tokens[s.commandIndex + 1]?
          commandIndex := s.commandIndex + 1 }
      else if token = greater then
        scanCommand tokens turns { s with
          outputRedirect := s.commandIndex
          outputFile := tokens[s.commandIndex + 1]?
          commandIndex := s.commandIndex + 1 }
      else scanCommand tokens turns { s with commandIndex := s.commandIndex + 1 }

/-- `args[arg_count++] = arg`, in an array of `size` pointers. -/
def putArg (size : ℕ) (args : List (Option Token)) (arg : Option Token) :
    Option (List (Option Token)) :=
  if args.length < size then some (args ++ [arg]) else none

/-- The token belongs to a redirection. -/
def Redirects.Skips (s : Redirects) (j : ℕ) : Prop :=
  (j : ℤ) = s.inputRedirect ∨ (j : ℤ) = s.inputRedirect + 1 ∨
    (j : ℤ) = s.outputRedirect ∨ (j : ℤ) = s.outputRedirect + 1

instance (s : Redirects) (j : ℕ) : Decidable (s.Skips j) :=
  inferInstanceAs (Decidable (_ ∨ _))

/-- The `for` loop that copies the arguments, from `j` on. -/
def copyArgs (tokens : List Token) (s : Redirects) (size : ℕ) :
    ℕ → ℕ → List (Option Token) → Option (List (Option Token))
  | 0, _, args => some args
  | turns + 1, j, args =>
    if s.Skips j then copyArgs tokens s size turns (j + 1) args
    else (putArg size args tokens[j]?).bind (copyArgs tokens s size turns (j + 1))

/-- The command of turn `i`, whose tokens begin at `start`. -/
def parseCommand (turns : ℕ) (tokens : List Token) (i start : ℕ) : Option Command := do
  let s ← scanCommand tokens turns ⟨-2, -2, none, none, start⟩
  let size := s.commandIndex - start + 1
  let args ← copyArgs tokens s size (s.commandIndex - start) start []
  let args ← putArg size args none
  return {
    start := start
    stop := s.commandIndex
    args := args
    input := if i = 0 then s.inputFile else none
    output := if i + 1 = numCommands tokens then s.outputFile else none }

/-- The loop over the commands, which forks each of them. -/
def forkLoop (turns : ℕ) (tokens : List Token) : ℕ → ℕ → ℕ → Option (List Command)
  | 0, _, _ => some []
  | left + 1, i, commandIndex => do
    let command ← parseCommand turns tokens i commandIndex
    let rest ← forkLoop turns tokens left (i + 1) (command.stop + 1)
    return command :: rest

/-- The commands that `run_command_with_pipes` forks. -/
def forkCommands (turns : ℕ) (tokens : List Token) : Option (List Command) :=
  forkLoop turns tokens (numCommands tokens) 0 0

/-! ### Any line -/

section Returns

variable {tokens : List Token} {turns i start size j left : ℕ} {s : Redirects}
  {args : List (Option Token)}

/-- The `while` loop stops, behind its start. -/
theorem scanCommand_returns (h : tokens.length - s.commandIndex < turns) :
    ∃ s', scanCommand tokens turns s = some s' ∧ s.commandIndex ≤ s'.commandIndex := by
  induction turns generalizing s with
  | zero => exact absurd h (Nat.not_lt_zero _)
  | succ turns ih =>
    rw [scanCommand]
    cases htoken : tokens[s.commandIndex]? with
    | none => exact ⟨s, rfl, Nat.le_refl _⟩
    | some token =>
      have hlt := (List.getElem?_eq_some_iff.1 htoken).1
      dsimp only
      split_ifs
      · exact ⟨s, rfl, Nat.le_refl _⟩
      all_goals
        refine (ih ?_).imp fun s' hs' => hs'.imp_right Nat.le_of_succ_le
        dsimp only
        omega

/-- The arguments' array is large enough. -/
theorem copyArgs_returns (h : args.length + turns ≤ size) :
    ∃ args', copyArgs tokens s size turns j args = some args' ∧
      args'.length ≤ args.length + turns := by
  induction turns generalizing j args with
  | zero => exact ⟨args, rfl, Nat.le_refl _⟩
  | succ turns ih =>
    rw [copyArgs]
    split_ifs
    · obtain ⟨args', hcopy, hle⟩ := ih (by omega : args.length + turns ≤ size)
      exact ⟨args', hcopy, by omega⟩
    · have hlength : (args ++ [tokens[j]?]).length = args.length + 1 := List.length_append
      rw [putArg, if_pos (by omega), Option.bind_some]
      obtain ⟨args', hcopy, hle⟩ := ih (by omega : (args ++ [tokens[j]?]).length + turns ≤ size)
      exact ⟨args', hcopy, by omega⟩

/-- A command is parsed; only the first has an input file, and only the last an output file. -/
theorem parseCommand_returns (h : tokens.length < turns) :
    ∃ command, parseCommand turns tokens i start = some command ∧
      (0 < i → command.input = none) ∧ (i + 1 < numCommands tokens → command.output = none) := by
  obtain ⟨s, hscan, hle⟩ : ∃ s, scanCommand tokens turns ⟨-2, -2, none, none, start⟩ = some s ∧
      start ≤ s.commandIndex := scanCommand_returns (by dsimp only; omega)
  obtain ⟨args, hcopy, hargs⟩ : ∃ args, copyArgs tokens s (s.commandIndex - start + 1)
      (s.commandIndex - start) start [] = some args ∧
        args.length ≤ 0 + (s.commandIndex - start) :=
    copyArgs_returns (by rw [List.length_nil]; omega)
  rw [parseCommand, hscan]
  dsimp only [Option.bind_eq_bind, Option.bind_some]
  rw [hcopy, Option.bind_some, putArg, if_pos (by omega)]
  refine ⟨_, rfl, fun hpos => ?_, fun hlt => ?_⟩
  · exact if_neg (Nat.ne_of_gt hpos)
  · exact if_neg (Nat.ne_of_lt hlt)

/-- **Any line is parsed**, into one command more than it has `|`s. -/
theorem forkLoop_returns (h : tokens.length < turns) :
    ∃ commands, forkLoop turns tokens left i start = some commands ∧ commands.length = left ∧
      ∀ k command, commands[k]? = some command → (0 < i + k → command.input = none) ∧
        (i + k + 1 < numCommands tokens → command.output = none) := by
  induction left generalizing i start with
  | zero => exact ⟨[], rfl, rfl, fun k command hcommand => absurd hcommand (by simp)⟩
  | succ left ih =>
    obtain ⟨command, hparse, hfiles⟩ : ∃ command, parseCommand turns tokens i start = some command ∧
      _ := parseCommand_returns h
    obtain ⟨commands, hloop, hlength, hrest⟩ : ∃ commands,
      forkLoop turns tokens left (i + 1) (command.stop + 1) = some commands ∧ _ := ih
    refine ⟨command :: commands, ?_, congrArg (· + 1) hlength, fun k c hc => ?_⟩
    · rw [forkLoop, hparse]
      dsimp only [Option.bind_eq_bind, Option.bind_some]
      rw [hloop]
      rfl
    · cases k with
      | zero =>
        obtain rfl := Option.some_inj.1 hc
        exact hfiles
      | succ k =>
        rw [Nat.add_comm k, ← Nat.add_assoc]
        exact hrest k c hc

end Returns

/-! ### Pipelines -/

/-- What a command is written with; a redirection is of the output or of the input. -/
inductive Item
  | word (w : Token)
  | redirect (output : Bool) (file : Token)

def sign (output : Bool) : Token := if output then greater else less

def Item.tokens : Item → List Token
  | word w => [w]
  | redirect output file => [sign output, file]

/-- A token that stands for itself. -/
def Plain (w : Token) : Prop := w ≠ bar ∧ w ≠ less ∧ w ≠ greater

def Item.IsPlain : Item → Prop
  | word w | redirect _ w => Plain w

def Item.word? : Item → Option Token
  | word w => some w
  | redirect _ _ => none

/-- The file, if the item is such a redirection. -/
def Item.file? (output : Bool) : Item → Option Token
  | word _ => none
  | redirect out file => if out = output then some file else none

/-- **A command as it is written**: words, and a redirection of each kind at most, anywhere. -/
structure Segment where
  items : List Item
  plain : ∀ item ∈ items, item.IsPlain
  one : ∀ output, (items.filterMap (Item.file? output)).length ≤ 1

def Segment.tokens (seg : Segment) : List Token := seg.items.flatMap Item.tokens

def Segment.words (seg : Segment) : List Token := seg.items.filterMap Item.word?

def Segment.file (seg : Segment) (output : Bool) : Option Token :=
  (seg.items.filterMap (Item.file? output)).head?

/-- The tokens of a pipeline. -/
def pipelineTokens (segs : List Segment) : List Token :=
  [bar].intercalate (segs.map Segment.tokens)

/-- The command of the segment at place `i` of `n`, whose tokens begin at `start`. -/
def Segment.command (seg : Segment) (n i start : ℕ) : Command where
  start := start
  stop := start + seg.tokens.length
  args := seg.words.map some ++ [none]
  input := if i = 0 then seg.file false else none
  output := if i + 1 = n then seg.file true else none

/-- The commands of the segments, one behind the other and a `|` between them. -/
def commandsFrom (n : ℕ) : ℕ → ℕ → List Segment → List Command
  | _, _, [] => []
  | i, start, seg :: segs =>
    seg.command n i start :: commandsFrom n (i + 1) (start + seg.tokens.length + 1) segs

/-! ### The loops on a segment -/

/-- The position of a redirection that was found, and its file. -/
def Redirects.position (s : Redirects) (output : Bool) : ℤ :=
  if output then s.outputRedirect else s.inputRedirect

def Redirects.file (s : Redirects) (output : Bool) : Option Token :=
  if output then s.outputFile else s.inputFile

/-- A redirection is found. -/
def Redirects.found (s : Redirects) (output : Bool) (i : ℕ) (file : Token) : Redirects :=
  if output then { s with outputRedirect := i, outputFile := some file }
  else { s with inputRedirect := i, inputFile := some file }

section Loops

variable {tokens rest tail : List Token} {token file : Token} {i n start size : ℕ}
  {items : List Item} {s t : Redirects} {turns : ℕ} {output out : Bool}
  {args : List (Option Token)}

theorem Redirects.skips_iff {j : ℕ} : s.Skips j ↔
    ∃ output, (j : ℤ) = s.position output ∨ (j : ℤ) = s.position output + 1 := by
  rw [Bool.exists_bool]
  exact or_assoc.symm

theorem position_found : (s.found out i file).position output =
    if out = output then (i : ℤ) else s.position output := by
  cases out <;> cases output <;> rfl

theorem file_found : (s.found out i file).file output =
    if out = output then some file else s.file output := by
  cases out <;> cases output <;> rfl

theorem getElem?_of_drop (h : tokens.drop i = token :: rest) : tokens[i]? = some token := by
  have hget := congrArg (fun l => l[0]?) h
  simpa using hget

theorem drop_succ_of_drop (h : tokens.drop i = token :: rest) : tokens.drop (i + 1) = rest := by
  rw [← List.drop_drop, h]
  rfl

/-- The tokens end, or a `|` follows. -/
def EndsCommand (tail : List Token) : Prop := tail = [] ∨ ∃ rest, tail = bar :: rest

/-- The variables at the end of the `while` loop over the items from an index on. -/
def scanned : ℕ → List Item → Redirects → Redirects
  | i, [], s => { s with commandIndex := i }
  | i, .word _ :: items, s => scanned (i + 1) items s
  | i, .redirect output file :: items, s => scanned (i + 2) items (s.found output i file)

/-- The index that `scanned` starts with does not matter. -/
theorem scanned_index : scanned i items { s with commandIndex := n } = scanned i items s := by
  induction items generalizing i s with
  | nil => rfl
  | cons item items ih =>
    cases item with
    | word w => exact ih
    | redirect output file =>
      rw [scanned, scanned, ← ih (s := s.found output i file)]
      cases output <;> rfl

/-- A word, or the file of a redirection. -/
theorem scanCommand_plain (h : tokens.drop s.commandIndex = token :: rest) (hplain : Plain token) :
    scanCommand tokens (turns + 1) s =
      scanCommand tokens turns { s with commandIndex := s.commandIndex + 1 } := by
  obtain ⟨hbar, hless, hgreater⟩ := hplain
  rw [scanCommand, getElem?_of_drop h]
  dsimp only
  rw [if_neg hbar, if_neg hless, if_neg hgreater]

/-- A redirection's sign. -/
theorem scanCommand_sign (h : tokens.drop s.commandIndex = sign output :: file :: rest) :
    scanCommand tokens (turns + 1) s = scanCommand tokens turns
      { s.found output s.commandIndex file with commandIndex := s.commandIndex + 1 } := by
  rw [scanCommand, getElem?_of_drop h, getElem?_of_drop (drop_succ_of_drop h)]
  cases output <;> rfl

theorem scanCommand_end (h : tokens.drop s.commandIndex = tail) (htail : EndsCommand tail)
    (hturns : 0 < turns) : scanCommand tokens turns s = some s := by
  obtain ⟨turns, rfl⟩ := Nat.exists_eq_succ_of_ne_zero (Nat.ne_of_gt hturns)
  rcases htail with rfl | ⟨rest, rfl⟩
  · rw [scanCommand, List.getElem?_eq_none (List.drop_eq_nil_iff.1 h)]
  · rw [scanCommand, getElem?_of_drop h]
    dsimp only
    rw [if_pos rfl]

/-- **The `while` loop over a segment**, by induction on its items. -/
theorem scanCommand_items (hplain : ∀ item ∈ items, item.IsPlain) (htail : EndsCommand tail)
    (h : tokens.drop s.commandIndex = items.flatMap Item.tokens ++ tail)
    (hturns : (items.flatMap Item.tokens).length < turns) :
    scanCommand tokens turns s = some (scanned s.commandIndex items s) := by
  induction items generalizing s turns with
  | nil => exact scanCommand_end h htail hturns
  | cons item items ih =>
    have hrest := fun item hitem => hplain item (List.mem_cons_of_mem _ hitem)
    have hitem := hplain item List.mem_cons_self
    obtain ⟨turns, rfl⟩ := Nat.exists_eq_succ_of_ne_zero (Nat.ne_zero_of_lt hturns)
    rw [List.flatMap_cons] at h hturns
    rw [List.length_append] at hturns
    cases item with
    | word w =>
      have hlength : (Item.word w).tokens.length = 1 := rfl
      rw [scanCommand_plain h hitem, ih hrest (drop_succ_of_drop h) (by omega)]
      exact congrArg some scanned_index
    | redirect output file =>
      have hlength : (Item.redirect output file).tokens.length = 2 := rfl
      obtain ⟨turns, rfl⟩ : ∃ k, turns = k + 1 := ⟨turns - 1, by omega⟩
      have hfile := drop_succ_of_drop h
      rw [scanCommand_sign h]
      rw [scanCommand_plain (s := { s.found output s.commandIndex file with
        commandIndex := s.commandIndex + 1 }) hfile hitem]
      rw [ih hrest (drop_succ_of_drop hfile) (by omega)]
      change some (scanned (s.commandIndex + 2) items { s.found output s.commandIndex file with
        commandIndex := s.commandIndex + 2 }) = _
      rw [scanned_index]
      rfl

theorem words_length (items : List Item) :
    (items.filterMap Item.word?).length ≤ (items.flatMap Item.tokens).length := by
  induction items with
  | nil => rfl
  | cons item items ih =>
    rw [List.flatMap_cons, List.length_append]
    cases item with
    | word w =>
      change (items.filterMap Item.word?).length + 1 ≤ 1 + _
      omega
    | redirect output file =>
      change (items.filterMap Item.word?).length ≤ 2 + _
      omega

/-- The index at the end. -/
theorem scanned_commandIndex :
    (scanned i items s).commandIndex = i + (items.flatMap Item.tokens).length := by
  induction items generalizing i s with
  | nil => rfl
  | cons item items ih =>
    rw [List.flatMap_cons, List.length_append, ← Nat.add_assoc]
    cases item with
    | word w => exact ih
    | redirect output file => exact ih

/-- Without a redirection of its kind the position stays, and so does the file. -/
theorem scanned_none (h : items.filterMap (Item.file? output) = []) :
    (scanned i items s).position output = s.position output ∧
      (scanned i items s).file output = s.file output := by
  induction items generalizing i s with
  | nil => exact ⟨rfl, rfl⟩
  | cons item items ih =>
    cases item with
    | word w => exact ih h
    | redirect out file =>
      rw [List.filterMap_cons] at h
      by_cases hout : out = output
      · simp [Item.file?, hout] at h
      · rw [Item.file?, if_neg hout] at h
        obtain ⟨hposition, hfile⟩ := ih (i := i + 2) (s := s.found out i file) h
        rw [position_found, if_neg hout] at hposition
        rw [file_found, if_neg hout] at hfile
        exact ⟨hposition, hfile⟩

/-- A redirection that is found lies behind the start. -/
theorem scanned_position : (scanned i items s).position output = s.position output ∨
    (i : ℤ) ≤ (scanned i items s).position output := by
  induction items generalizing i s with
  | nil => exact .inl rfl
  | cons item items ih =>
    cases item with
    | word w =>
      refine (ih (i := i + 1) (s := s)).imp_right fun hle => ?_
      change (i : ℤ) ≤ (scanned (i + 1) items s).position output
      omega
    | redirect out file =>
      have hfound := ih (i := i + 2) (s := s.found out i file)
      rw [position_found] at hfound
      change (scanned (i + 2) items _).position output = _ ∨
        (i : ℤ) ≤ (scanned (i + 2) items _).position output
      split_ifs at hfound
      · omega
      · omega

/-- The file is that of the segment. -/
theorem scanned_file (h : (items.filterMap (Item.file? output)).length ≤ 1)
    (hs : s.file output = none) :
    (scanned i items s).file output = (items.filterMap (Item.file? output)).head? := by
  induction items generalizing i s with
  | nil => exact hs
  | cons item items ih =>
    cases item with
    | word w => exact ih h hs
    | redirect out file =>
      rw [List.filterMap_cons] at h ⊢
      by_cases hout : out = output
      · rw [Item.file?, if_pos hout] at h ⊢
        dsimp only at h ⊢
        rw [List.length_cons] at h
        have hnone : items.filterMap (Item.file? output) = [] :=
          List.length_eq_zero_iff.1 (by omega)
        have hfile := (scanned_none (i := i + 2) (s := s.found out i file) hnone).2
        rw [file_found, if_pos hout] at hfile
        exact hfile
      · rw [Item.file?, if_neg hout] at h ⊢
        exact ih h (by rw [file_found, if_neg hout, hs])

/-- The redirections are at the positions that were found, and the words are not. -/
def Marks (t : Redirects) : ℕ → List Item → Prop
  | _, [] => True
  | i, .word _ :: items => ¬t.Skips i ∧ Marks t (i + 1) items
  | i, .redirect output _ :: items => t.position output = i ∧ Marks t (i + 2) items

/-- **What the `while` loop found**, by induction on the items. -/
theorem scanned_marks (hone : ∀ output, (items.filterMap (Item.file? output)).length ≤ 1)
    (hs : ∀ output, s.position output + 1 < i) : Marks (scanned i items s) i items := by
  induction items generalizing i s with
  | nil => trivial
  | cons item items ih =>
    cases item with
    | word w =>
      refine ⟨fun hskips => ?_, ih hone fun output => ?_⟩
      · obtain ⟨output, hskips⟩ := Redirects.skips_iff.1 hskips
        have hposition : (scanned (i + 1) items s).position output = s.position output ∨
          ((i + 1 : ℕ) : ℤ) ≤ (scanned (i + 1) items s).position output := scanned_position
        have hlt := hs output
        change (i : ℤ) = (scanned (i + 1) items s).position output ∨
          (i : ℤ) = (scanned (i + 1) items s).position output + 1 at hskips
        omega
      · have hlt := hs output
        omega
    | redirect out file =>
      have hrest : ∀ output, (items.filterMap (Item.file? output)).length ≤ 1 := fun output => by
        have hle := hone output
        rw [List.filterMap_cons] at hle
        split at hle
        · exact hle
        · rw [List.length_cons] at hle
          omega
      have hnone : items.filterMap (Item.file? out) = [] := by
        have hle := hone out
        rw [List.filterMap_cons, Item.file?, if_pos rfl] at hle
        dsimp only at hle
        rw [List.length_cons] at hle
        exact List.length_eq_zero_iff.1 (by omega)
      refine ⟨?_, ih hrest fun output => ?_⟩
      · have hposition := (scanned_none (i := i + 2) (s := s.found out i file) hnone).1
        rw [position_found, if_pos rfl] at hposition
        exact hposition
      · have hlt := hs output
        rw [position_found]
        split_ifs
        · push_cast
          omega
        · push_cast
          omega

theorem putArg_some (h : args.length < size) (arg : Option Token) :
    putArg size args arg = some (args ++ [arg]) := if_pos h

/-- **The copy loop over a segment**, by induction on its items. -/
theorem copyArgs_items (hmarks : Marks t i items)
    (h : tokens.drop i = items.flatMap Item.tokens ++ tail)
    (hsize : args.length + (items.flatMap Item.tokens).length ≤ size) :
    copyArgs tokens t size (items.flatMap Item.tokens).length i args =
      some (args ++ (items.filterMap Item.word?).map some) := by
  induction items generalizing i args with
  | nil => exact congrArg some (List.append_nil args).symm
  | cons item items ih =>
    rw [List.flatMap_cons] at h hsize ⊢
    rw [List.length_append] at hsize ⊢
    cases item with
    | word w =>
      have hlength : (Item.word w).tokens.length = 1 := rfl
      obtain ⟨hskips, hmarks⟩ := hmarks
      rw [hlength, Nat.add_comm 1, copyArgs, if_neg hskips, putArg_some (by omega),
        getElem?_of_drop h]
      rw [Option.bind_some, ih hmarks (drop_succ_of_drop h)]
      · simp [Item.word?]
      · rw [List.length_append, List.length_singleton]
        omega
    | redirect output file =>
      have hlength : (Item.redirect output file).tokens.length = 2 := rfl
      obtain ⟨hposition, hmarks⟩ := hmarks
      have hsign : t.Skips i := Redirects.skips_iff.2 ⟨output, .inl hposition.symm⟩
      have hfile : t.Skips (i + 1) := by
        refine Redirects.skips_iff.2 ⟨output, .inr ?_⟩
        rw [hposition]
        rfl
      rw [hlength, Nat.add_comm 2, copyArgs, if_pos hsign, copyArgs, if_pos hfile]
      exact ih hmarks (drop_succ_of_drop (drop_succ_of_drop h)) (by omega)

/-- **A segment's command.** -/
theorem parseCommand_segment {seg : Segment} (h : tokens.drop start = seg.tokens ++ tail)
    (htail : EndsCommand tail) (hturns : seg.tokens.length < turns) :
    parseCommand turns tokens i start = some (seg.command (numCommands tokens) i start) := by
  have hscan := scanCommand_items (s := ⟨-2, -2, none, none, start⟩) seg.plain htail h hturns
  have hindex : (scanned start seg.items ⟨-2, -2, none, none, start⟩).commandIndex =
      start + seg.tokens.length := scanned_commandIndex
  have hmarks := scanned_marks (i := start) (s := ⟨-2, -2, none, none, start⟩) seg.one
    fun output => by cases output <;> (simp only [Redirects.position]; split <;> omega)
  have hfile : ∀ output, (scanned start seg.items ⟨-2, -2, none, none, start⟩).file output =
      seg.file output := fun output => by
    refine scanned_file (seg.one output) ?_
    cases output <;> rfl
  have hsize : ([] : List (Option Token)).length + seg.tokens.length ≤ seg.tokens.length + 1 := by
    rw [List.length_nil]
    omega
  have hcopy := copyArgs_items hmarks h hsize
  have hwords : (seg.words.map some).length < seg.tokens.length + 1 := by
    rw [List.length_map]
    exact Nat.lt_succ_of_le (words_length seg.items)
  rw [parseCommand, hscan]
  dsimp only [Option.bind_eq_bind, Option.bind_some]
  rw [hindex, Nat.add_sub_cancel_left]
  change (copyArgs tokens _ _ (seg.items.flatMap Item.tokens).length start []).bind _ = _
  rw [hcopy]
  change (putArg _ (seg.words.map some) none).bind _ = _
  rw [putArg_some hwords]
  have hinput := hfile false
  have houtput := hfile true
  change (scanned start seg.items _).inputFile = _ at hinput
  change (scanned start seg.items _).outputFile = _ at houtput
  rw [hinput, houtput]
  rfl

end Loops

/-! ### The loop over the commands -/

/-- The token at `j` is one of the command's. -/
def Command.Has (command : Command) (j : ℕ) : Prop := command.start ≤ j ∧ j < command.stop

instance (token : Token) : Decidable (Plain token) := inferInstanceAs (Decidable (_ ∧ _))

instance (item : Item) : Decidable item.IsPlain :=
  match item with
  | .word w | .redirect _ w => inferInstanceAs (Decidable (Plain w))

instance (command : Command) : DecidablePred command.Has :=
  fun _ => inferInstanceAs (Decidable (_ ∧ _))

/-- The tokens of the command. -/
def Command.tokens (command : Command) (tokens : List Token) : List Token :=
  (tokens.drop command.start).take (command.stop - command.start)

section Segments

variable {tokens : List Token} {segs : List Segment} {seg seg' : Segment} {turns i n start j : ℕ}

theorem Item.IsPlain.ne_bar {item : Item} (h : item.IsPlain) {token : Token}
    (htoken : token ∈ item.tokens) : token ≠ bar := by
  cases item with
  | word w =>
    rw [List.mem_singleton.1 htoken]
    exact h.1
  | redirect output file =>
    rw [tokens, List.mem_pair] at htoken
    rcases htoken with rfl | rfl
    · cases output <;> decide
    · exact h.1

theorem Segment.ne_bar {token : Token} (h : token ∈ seg.tokens) : token ≠ bar := by
  obtain ⟨item, hitem, htoken⟩ := List.mem_flatMap.1 h
  exact (seg.plain item hitem).ne_bar htoken

theorem pipelineTokens_singleton : pipelineTokens [seg] = seg.tokens :=
  List.intercalate_singleton

theorem pipelineTokens_cons_cons : pipelineTokens (seg :: seg' :: segs) =
    seg.tokens ++ bar :: pipelineTokens (seg' :: segs) := by
  rw [pipelineTokens, List.map_cons, List.map_cons, List.intercalate_cons_cons]
  exact List.append_assoc ..

theorem drop_bar {rest : List Token} (h : tokens.drop start = seg.tokens ++ bar :: rest) :
    tokens.drop (start + seg.tokens.length) = bar :: rest := by
  rw [← List.drop_drop, h, List.drop_left]

/-- There is a `|` between two segments. -/
theorem count_bar : (pipelineTokens (seg :: segs)).count bar = segs.length := by
  have hnone : ∀ seg : Segment, seg.tokens.count bar = 0 := fun seg =>
    List.count_eq_zero.2 fun hbar => seg.ne_bar hbar rfl
  induction segs generalizing seg with
  | nil => rw [pipelineTokens_singleton, hnone, List.length_nil]
  | cons seg' segs ih =>
    rw [pipelineTokens_cons_cons, List.count_append, hnone, List.count_cons_self, ih,
      List.length_cons, Nat.zero_add]

/-- **The loop over the commands**, by induction on the segments that are left. -/
theorem forkLoop_segments (h : tokens.drop start = pipelineTokens (seg :: segs))
    (hturns : tokens.length < turns) :
    forkLoop turns tokens (segs.length + 1) i start =
      some (commandsFrom (numCommands tokens) i start (seg :: segs)) := by
  have hlength := congrArg List.length h
  rw [List.length_drop] at hlength
  induction segs generalizing seg i start with
  | nil =>
    rw [pipelineTokens_singleton] at h hlength
    rw [← List.append_nil seg.tokens] at h
    rw [forkLoop, parseCommand_segment h (.inl rfl) (by omega)]
    rfl
  | cons seg' segs ih =>
    rw [pipelineTokens_cons_cons] at h hlength
    rw [List.length_append, List.length_cons] at hlength
    have hrest := drop_succ_of_drop (drop_bar h)
    rw [List.length_cons, forkLoop, parseCommand_segment h (.inr ⟨_, rfl⟩) (by omega)]
    dsimp only [Option.bind_eq_bind, Option.bind_some]
    change (forkLoop turns tokens (segs.length + 1) (i + 1)
      (start + seg.tokens.length + 1)).bind _ = _
    rw [ih hrest (by rw [← hrest, List.length_drop])]
    rfl

/-- The commands that are left begin behind. -/
theorem start_le {command : Command} (h : command ∈ commandsFrom n i start segs) :
    start ≤ command.start := by
  induction segs generalizing i start with
  | nil => exact absurd h List.not_mem_nil
  | cons seg segs ih =>
    rcases List.mem_cons.1 h with rfl | hrest
    · exact Nat.le_refl _
    · have hle := ih hrest
      omega

/-- Nor has one of them a token in front. -/
theorem countP_none (h : j < start) :
    (commandsFrom n i start segs).countP (fun command => command.Has j) = 0 := by
  refine List.countP_eq_zero.2 fun command hcommand hhas => ?_
  have hle := start_le hcommand
  have hhas := (of_decide_eq_true hhas).1
  omega

theorem mem_segment {token : Token} {tail : List Token}
    (h : tokens.drop start = seg.tokens ++ tail) (hj : start ≤ j)
    (hlt : j < start + seg.tokens.length) (htoken : tokens[j]? = some token) :
    token ∈ seg.tokens := by
  have hget : (tokens.drop start)[j - start]? = some token := by
    rw [List.getElem?_drop, Nat.add_sub_cancel' hj, htoken]
  rw [h, List.getElem?_append_left (by omega)] at hget
  exact List.mem_of_getElem? hget

theorem countP_first {token : Token} {tail : List Token}
    (h : tokens.drop start = seg.tokens ++ tail) (hj : start ≤ j)
    (hlt : j < start + seg.tokens.length) (htoken : tokens[j]? = some token) :
    (commandsFrom n i start (seg :: segs)).countP (fun command => command.Has j) =
      if token = bar then 0 else 1 := by
  have hhas : (seg.command n i start).Has j := ⟨hj, hlt⟩
  rw [if_neg (seg.ne_bar (mem_segment h hj hlt htoken)), commandsFrom, List.countP_cons,
    if_pos (decide_eq_true hhas), countP_none (by omega)]

/-- **A token that is no `|` is one command's, and a `|` is none's.** -/
theorem countP_has {token : Token} (h : tokens.drop start = pipelineTokens (seg :: segs))
    (hj : start ≤ j) (htoken : tokens[j]? = some token) :
    (commandsFrom n i start (seg :: segs)).countP (fun command => command.Has j) =
      if token = bar then 0 else 1 := by
  induction segs generalizing seg i start with
  | nil =>
    rw [pipelineTokens_singleton] at h
    have hlength := congrArg List.length h
    have hlt := (List.getElem?_eq_some_iff.1 htoken).1
    rw [List.length_drop] at hlength
    rw [← List.append_nil seg.tokens] at h
    exact countP_first h hj (by omega) htoken
  | cons seg' segs ih =>
    rw [pipelineTokens_cons_cons] at h
    have hbar := drop_bar h
    rcases Nat.lt_or_ge j (start + seg.tokens.length) with hin | hout
    · exact countP_first h hj hin htoken
    · have hnot : ¬(seg.command n i start).Has j := fun hhas => Nat.not_lt.2 hout hhas.2
      rw [commandsFrom, List.countP_cons, if_neg fun hhas => hnot (of_decide_eq_true hhas),
        Nat.add_zero]
      rcases Nat.eq_or_lt_of_le hout with rfl | hbehind
      · rw [getElem?_of_drop hbar] at htoken
        rw [if_pos (Option.some_inj.1 htoken).symm, countP_none (Nat.lt_succ_self _)]
      · exact ih (drop_succ_of_drop hbar) hbehind

theorem command_tokens {tail : List Token} (h : tokens.drop start = seg.tokens ++ tail) :
    (seg.command n i start).tokens tokens = seg.tokens := by
  change (tokens.drop start).take (start + seg.tokens.length - start) = _
  rw [h, Nat.add_sub_cancel_left, List.take_left]

/-- **The commands' tokens are those of the segments.** -/
theorem commandsFrom_tokens (h : tokens.drop start = pipelineTokens (seg :: segs)) :
    (commandsFrom n i start (seg :: segs)).map (fun command => command.tokens tokens) =
      (seg :: segs).map Segment.tokens := by
  induction segs generalizing seg i start with
  | nil =>
    rw [pipelineTokens_singleton] at h
    rw [← List.append_nil seg.tokens] at h
    exact congrArg (· :: []) (command_tokens h)
  | cons seg' segs ih =>
    rw [pipelineTokens_cons_cons] at h
    rw [commandsFrom, List.map_cons, List.map_cons, command_tokens h,
      ih (drop_succ_of_drop (drop_bar h))]

/-- **A pipeline is parsed.**  Each segment is a command, with the segment's words and a null pointer
for arguments, and the tokens of the line are the commands' but for the `|`s. -/
theorem forkCommands_segments (hsegs : segs ≠ []) (hturns : (pipelineTokens segs).length < turns) :
    forkCommands turns (pipelineTokens segs) = some (commandsFrom segs.length 0 0 segs) ∧
      (commandsFrom segs.length 0 0 segs).map (fun command =>
        command.tokens (pipelineTokens segs)) = segs.map Segment.tokens ∧
      ∀ j token, (pipelineTokens segs)[j]? = some token →
        (commandsFrom segs.length 0 0 segs).countP (fun command => command.Has j) =
          if token = bar then 0 else 1 := by
  obtain ⟨seg, segs, rfl⟩ := List.exists_cons_of_ne_nil hsegs
  have hcount : numCommands (pipelineTokens (seg :: segs)) = (seg :: segs).length :=
    congrArg (· + 1) count_bar
  refine ⟨?_, commandsFrom_tokens rfl, fun j token htoken =>
    countP_has rfl (Nat.zero_le j) htoken⟩
  rw [forkCommands, hcount, List.length_cons, forkLoop_segments rfl hturns, hcount]
  rfl

end Segments

/-- `<in a >o b|c`, with the redirections in front and in the middle. -/
def segmentsExample : List Segment :=
  [⟨[.redirect false [1], .word [2], .redirect true [3], .word [4]], by decide, by decide⟩,
    ⟨[.word [5]], by decide, by decide⟩]

/-- The commands of the example, with `in` and `o` as their redirections. -/
theorem forkCommands_segments_example :
    forkCommands 9 (pipelineTokens segmentsExample) = some
      [⟨0, 6, [some [2], some [4], none], some [1], none⟩, ⟨7, 8, [some [5], none], none, none⟩] :=
  (forkCommands_segments (by decide) (by decide)).1

end Shell
end CS162

/-
# Reading a request

`hw-http-rs/src/http.rs`, lines 1-50: `parse_request`.

The loop reads until a read brings a carriage return, and then all bytes that have been read are
decoded as UTF-8, those after the request line too.  So the request is what its line says exactly
if the bytes that have come with the line are a text (`parseRequest_iff`): whether it is depends
on what follows the line, and on how the bytes are cut into reads.
-/

import CS162.Basis.Bytes
import CS162.Basis.Strings

namespace CS162
namespace Http

open CS162.Basis

abbrev Bytes := List UInt8

/-- `REQUEST_BUF_SIZE`. -/
def requestBufSize : ℕ := 1024

structure Request where
  method : Text
  path : Text
  deriving DecidableEq

/-- How `parse_request` fails: by `from_utf8`, or with `HttpError::InvalidRequest`. -/
inductive ParseError
  | utf8
  | invalidRequest
  deriving DecidableEq

/-- `read` into a buffer with so much room, from a stream of which these pieces are still to
come.  At the end of the stream, and where there is no room, it reads nothing. -/
def read (room : ℕ) : List Bytes → Bytes × List Bytes
  | [] => ([], [])
  | piece :: pieces =>
    if piece.length ≤ room then (piece, pieces) else (piece.take room, piece.drop room :: pieces)

/-- The loop, with `buf` read so far: `buf[..end]` after it.  `none` if the turns do not suffice. -/
def readLine : ℕ → Bytes → List Bytes → Option Bytes
  | 0, _, _ => none
  | turns + 1, buf, pieces =>
    let (piece, pieces) := read (requestBufSize - buf.length) pieces
    if piece.isEmpty then some buf
    else if piece.contains 13 then some (buf ++ piece)
    else readLine turns (buf ++ piece) pieces

/-- What comes after the loop. -/
def parseText (buf : Bytes) : Except ParseError Request :=
  match fromUtf8 buf with
  | none => .error .utf8
  | some s =>
    match splitWhitespace (trim s) with
    | method :: path :: _ => .ok ⟨method, path⟩
    | _ => .error .invalidRequest

/-- `parse_request`, of a stream that comes in these pieces. -/
def parseRequest (turns : ℕ) (pieces : List Bytes) : Option (Except ParseError Request) :=
  (readLine turns [] pieces).map parseText

/-! ### Deliveries -/

/-- The pieces up to the one with the first carriage return. -/
def arrived : List Bytes → Bytes
  | [] => []
  | piece :: pieces => if 13 ∈ piece then piece else piece ++ arrived pieces

/-- **What has come with the request line** is a text: the bytes up to the end of the read that
brings the first carriage return, as far as they fit. -/
def LineReadable (pieces : List Bytes) : Prop :=
  ∃ s, utf8 s = (arrived pieces).take requestBufSize

/-- A word of a request line. -/
def IsToken (w : Text) : Prop := w ≠ [] ∧ ∀ c ∈ w, isWhitespace c = false

/-- A request line without its end. -/
def requestLine (method path version : Text) : Text := method ++ ' ' :: path ++ ' ' :: version

/-- **A stream that begins with a request line**, in pieces. -/
structure Delivery (method path version : Text) (rest : Bytes) (pieces : List Bytes) : Prop where
  methodToken : IsToken method
  pathToken : IsToken path
  versionToken : IsToken version
  fits : (utf8 (requestLine method path version)).length + 2 ≤ requestBufSize
  stream : pieces.flatten = utf8 (requestLine method path version) ++ 13 :: 10 :: rest
  nonempty : ∀ piece ∈ pieces, piece ≠ []

/-! ### Reading -/

section Read

variable {buf : Bytes} {pieces : List Bytes} {piece : Bytes} {turns room : ℕ}

theorem arrived_prefix (pieces : List Bytes) : arrived pieces <+: pieces.flatten := by
  induction pieces with
  | nil => exact List.prefix_rfl
  | cons piece pieces ih =>
    rw [arrived, List.flatten_cons]
    split
    · exact List.prefix_append _ _
    · exact (List.prefix_append_right_inj _).2 ih

theorem mem_arrived (h : 13 ∈ pieces.flatten) : 13 ∈ arrived pieces := by
  induction pieces with
  | nil => exact h
  | cons piece pieces ih =>
    rw [arrived]
    split
    · assumption
    · rename_i hno
      rw [List.flatten_cons] at h
      exact List.mem_append_right _ (ih ((List.mem_append.1 h).resolve_left hno))

/-- **The loop** ends with the read that brings the carriage return, if there is room for it. -/
theorem readLine_eq (hne : ∀ piece ∈ pieces, piece ≠ [])
    (hcr : 13 ∈ pieces.flatten.take (requestBufSize - buf.length))
    (hturns : requestBufSize < turns + buf.length) :
    readLine turns buf pieces = some ((buf ++ arrived pieces).take requestBufSize) := by
  induction pieces generalizing buf turns with
  | nil => exact absurd (List.mem_of_mem_take hcr) List.not_mem_nil
  | cons piece pieces ih =>
    obtain ⟨hpiece, hpieces⟩ := List.forall_mem_cons.1 hne
    have hroom : 0 < requestBufSize - buf.length := by
      rw [Nat.pos_iff_ne_zero]
      intro h0
      rw [h0, List.take_zero] at hcr
      exact absurd hcr List.not_mem_nil
    have hlen := List.length_pos_iff.2 hpiece
    have hbuf : buf.length ≤ requestBufSize := by omega
    obtain ⟨turns, rfl⟩ : ∃ n, turns = n + 1 := Nat.exists_eq_succ_of_ne_zero (by omega)
    rw [List.flatten_cons] at hcr
    rw [readLine, read]
    by_cases hfits : piece.length ≤ requestBufSize - buf.length
    · rw [if_pos hfits]
      dsimp only
      rw [if_neg (by rwa [List.isEmpty_iff]), arrived]
      by_cases hmem : 13 ∈ piece
      · rw [if_pos (List.contains_iff_mem.2 hmem), if_pos hmem, List.take_of_length_le]
        rw [List.length_append]
        omega
      · rw [if_neg (by rwa [List.contains_iff_mem]), if_neg hmem]
        rw [List.take_append, List.take_of_length_le hfits] at hcr
        have hrest := (List.mem_append.1 hcr).resolve_left hmem
        rw [Nat.sub_sub, ← List.length_append] at hrest
        rw [ih hpieces hrest (by rw [List.length_append]; omega), List.append_assoc]
    · rw [if_neg hfits]
      dsimp only
      rw [List.take_append_of_le_length (Nat.le_of_not_le hfits)] at hcr
      have htake : piece.take (requestBufSize - buf.length) ≠ [] := List.ne_nil_of_mem hcr
      rw [if_neg (by rwa [List.isEmpty_iff]), if_pos (List.contains_iff_mem.2 hcr), arrived,
        if_pos (List.mem_of_mem_take hcr), List.take_append, List.take_of_length_le hbuf]

end Read

/-! ### The request line -/

section Line

variable {method path version s : Text} {rest buf : Bytes} {pieces : List Bytes}

theorem IsToken.not_mem {w : Text} (h : IsToken w) : (13 : UInt8) ∉ utf8 w := by
  intro hmem
  obtain ⟨c, hc, hcr⟩ := exists_of_mem_utf8 hmem (by decide)
  have hwhite := h.2 c hc
  have hnat : c.toNat = 13 := hcr
  unfold isWhitespace at hwhite
  rw [hnat] at hwhite
  cases hwhite

/-- A request line has no carriage return. -/
theorem not_mem_requestLine (hmethod : IsToken method) (hpath : IsToken path)
    (hversion : IsToken version) : (13 : UInt8) ∉ utf8 (requestLine method path version) := by
  have hspace : utf8 [' '] = [32] := by decide
  have hsplit : requestLine method path version = method ++ [' '] ++ path ++ [' '] ++ version := by
    unfold requestLine
    simp
  rw [hsplit, utf8_append, utf8_append, utf8_append, utf8_append, hspace]
  simp only [List.mem_append, List.mem_singleton, not_or]
  exact ⟨⟨⟨⟨hmethod.not_mem, by decide⟩, hpath.not_mem⟩, by decide⟩, hversion.not_mem⟩

/-- The words of a text that begins with a request line. -/
theorem splitWhitespace_line (hmethod : IsToken method) (hpath : IsToken path)
    (hversion : IsToken version) (s : Text) :
    ∃ ws, splitWhitespace (requestLine method path version ++ '\r' :: s) = method :: path :: ws := by
  have htoken : ∀ {w}, IsToken w → ∀ c ∈ w, (!isWhitespace c) = true := fun h c hc => by
    rw [h.2 c hc]
    rfl
  have hruns : MaximalRuns (fun c => !isWhitespace c)
      (method ++ ' ' :: (path ++ ' ' :: (version ++ '\r' :: s))) (method :: path :: version :: splitWhitespace s) :=
    .word hmethod.1 (htoken hmethod) (by decide) (.word hpath.1 (htoken hpath) (by decide)
      (.word hversion.1 (htoken hversion) (by decide) (maximalRuns_words s)))
  refine ⟨_, Eq.trans (congrArg splitWhitespace ?_) hruns.words_eq⟩
  unfold requestLine
  simp

/-- What begins with a request line and its carriage return is decoded to a request with its
method and path, if it is decoded. -/
theorem parseText_line (hmethod : IsToken method) (hpath : IsToken path) (hversion : IsToken version)
    (hbuf : buf = utf8 (requestLine method path version) ++ 13 :: rest) :
    (∃ s, utf8 s = buf) ∧ parseText buf = .ok ⟨method, path⟩ ∨
      (¬∃ s, utf8 s = buf) ∧ parseText buf = .error .utf8 := by
  match hdecode : fromUtf8 buf with
  | none =>
    refine .inr ⟨?_, by rw [parseText, hdecode]⟩
    rintro ⟨s, hs⟩
    rw [fromUtf8_eq_some_iff.2 hs] at hdecode
    cases hdecode
  | some s =>
    have hs := fromUtf8_eq_some_iff.1 hdecode
    refine .inl ⟨⟨s, hs⟩, ?_⟩
    have hline : utf8 s = utf8 (requestLine method path version ++ ['\r']) ++ rest := by
      rw [hs, hbuf, utf8_append, List.append_assoc]
      rfl
    obtain ⟨u, rfl, -⟩ := exists_append_of_utf8 hline
    obtain ⟨ws, hws⟩ := splitWhitespace_line hmethod hpath hversion u
    rw [parseText, hdecode]
    dsimp only
    rw [splitWhitespace_trim, List.append_assoc, List.singleton_append, hws]

/-- **Parsing a delivery**: it gives the method and the path if what has come with the line is a
text, and else an error. -/
theorem Delivery.parse (h : Delivery method path version rest pieces) {turns : ℕ}
    (hturns : requestBufSize < turns) :
    LineReadable pieces ∧ parseRequest turns pieces = some (.ok ⟨method, path⟩) ∨
      ¬LineReadable pieces ∧ parseRequest turns pieces = some (.error .utf8) := by
  set line := utf8 (requestLine method path version) with hline
  have hnot : (13 : UInt8) ∉ line := not_mem_requestLine h.methodToken h.pathToken h.versionToken
  have hfits := h.fits
  rw [← hline] at hfits
  have hmem : 13 ∈ pieces.flatten := by
    rw [h.stream]
    exact List.mem_append_right _ List.mem_cons_self
  have hcr : 13 ∈ pieces.flatten.take (requestBufSize - ([] : Bytes).length) := by
    rw [h.stream, ← hline, List.length_nil, Nat.sub_zero, List.take_append, List.take_of_length_le (by omega)]
    refine List.mem_append_right _ ?_
    obtain ⟨n, hn⟩ : ∃ n, requestBufSize - line.length = n + 1 :=
      Nat.exists_eq_succ_of_ne_zero (by omega)
    rw [hn, List.take_succ_cons]
    exact List.mem_cons_self
  -- what has arrived is the line, the carriage return and a part of the rest
  have hbuf : ∃ x, (arrived pieces).take requestBufSize = line ++ 13 :: x := by
    obtain ⟨y, hy⟩ := arrived_prefix pieces
    rw [h.stream, ← hline] at hy
    rcases List.append_eq_append_iff.1 hy with ⟨z, hz, -⟩ | ⟨z, hz, -⟩
    · refine absurd (mem_arrived hmem) fun hin => hnot ?_
      rw [hz]
      exact List.mem_append_left _ hin
    · rw [hz] at hy
      rw [List.append_assoc, List.append_cancel_left_eq] at hy
      match z, hz, hy with
      | [], hz, _ =>
        rw [List.append_nil] at hz
        exact absurd (hz ▸ mem_arrived hmem) hnot
      | c :: z, hz, hy =>
        obtain rfl := (List.cons.inj hy).1
        obtain ⟨n, hn⟩ : ∃ n, requestBufSize - line.length = n + 1 :=
          Nat.exists_eq_succ_of_ne_zero (by omega)
        refine ⟨z.take n, ?_⟩
        rw [hz, List.take_append, List.take_of_length_le (by omega), hn, List.take_succ_cons]
  obtain ⟨x, hx⟩ := hbuf
  have hparse : parseRequest turns pieces = some (parseText ((arrived pieces).take requestBufSize)) := by
    unfold parseRequest
    rw [readLine_eq h.nonempty hcr (by rw [List.length_nil]; omega), List.nil_append]
    rfl
  rw [hparse]
  unfold LineReadable
  rcases parseText_line h.methodToken h.pathToken h.versionToken hx with ⟨hs, hok⟩ | ⟨hs, herr⟩
  · exact .inl ⟨hs, congrArg some hok⟩
  · exact .inr ⟨hs, congrArg some herr⟩

/-- **Requests do not depend on the packets exactly as far as what comes with the line is a
text.**  The method and the path are those of the line if and only if it is; and two deliveries,
of streams with the same line, give the same if and only if it is for both or for neither. -/
theorem parseRequest_iff (h : Delivery method path version rest pieces) {turns : ℕ}
    (hturns : requestBufSize < turns) :
    (parseRequest turns pieces = some (.ok ⟨method, path⟩) ↔ LineReadable pieces) ∧
    ∀ rest' pieces', Delivery method path version rest' pieces' →
      (parseRequest turns pieces = parseRequest turns pieces' ↔
        (LineReadable pieces ↔ LineReadable pieces')) := by
  constructor
  · rcases h.parse hturns with ⟨hread, hparse⟩ | ⟨hread, hparse⟩
    · exact iff_of_true hparse hread
    · refine iff_of_false (fun hok => ?_) hread
      rw [hparse] at hok
      cases hok
  · intro rest' pieces' h'
    rcases h.parse hturns with ⟨hread, hparse⟩ | ⟨hread, hparse⟩
    · rcases h'.parse hturns with ⟨hread', hparse'⟩ | ⟨hread', hparse'⟩
      · exact iff_of_true (hparse.trans hparse'.symm) (iff_of_true hread hread')
      · refine iff_of_false (fun heq => ?_) fun hiff => hread' (hiff.1 hread)
        rw [hparse, hparse'] at heq
        cases heq
    · rcases h'.parse hturns with ⟨hread', hparse'⟩ | ⟨hread', hparse'⟩
      · refine iff_of_false (fun heq => ?_) fun hiff => hread (hiff.2 hread')
        rw [hparse, hparse'] at heq
        cases heq
      · exact iff_of_true (hparse.trans hparse'.symm) (iff_of_false hread hread')

end Line

/-- `GET / X`. -/
def getRoot : Text := requestLine ['G', 'E', 'T'] ['/'] ['X']

/-- The request for the root, and what follows it, in any pieces. -/
theorem delivery_getRoot {rest : Bytes} {pieces : List Bytes}
    (hstream : pieces.flatten = utf8 getRoot ++ 13 :: 10 :: rest)
    (hnonempty : ∀ piece ∈ pieces, piece ≠ []) :
    Delivery ['G', 'E', 'T'] ['/'] ['X'] rest pieces where
  methodToken := ⟨List.cons_ne_nil _ _, List.forall_mem_cons.2 ⟨rfl,
    List.forall_mem_cons.2 ⟨rfl, List.forall_mem_singleton.2 rfl⟩⟩⟩
  pathToken := ⟨List.cons_ne_nil _ _, List.forall_mem_singleton.2 rfl⟩
  versionToken := ⟨List.cons_ne_nil _ _, List.forall_mem_singleton.2 rfl⟩
  fits := by decide
  stream := hstream
  nonempty := hnonempty

/-- The request in three packets, the line's end in the third, and a byte of a body in a fourth. -/
def getRootPackets : List Bytes := [[71, 69], [84, 32, 47], [32, 88, 13, 10], [255]]

theorem delivery_getRootPackets : Delivery ['G', 'E', 'T'] ['/'] ['X'] [255] getRootPackets :=
  delivery_getRoot (by decide) (by decide)

/-- The request in one packet, without a body. -/
theorem delivery_getRootWhole :
    Delivery ['G', 'E', 'T'] ['/'] ['X'] [] [utf8 getRoot ++ [13, 10]] :=
  delivery_getRoot (List.append_nil _) (by decide)

/-- The request and the byte of the body in one packet. -/
theorem delivery_getRootBody :
    Delivery ['G', 'E', 'T'] ['/'] ['X'] [255] [utf8 getRoot ++ [13, 10, 255]] :=
  delivery_getRoot (List.append_nil _) (by decide)

/-- The request in four packets is parsed, and as the one in one packet is. -/
theorem parseRequest_iff_root :
    parseRequest 1025 getRootPackets = some (.ok ⟨['G', 'E', 'T'], ['/']⟩) ∧
    parseRequest 1025 getRootPackets = parseRequest 1025 [utf8 getRoot ++ [13, 10]] := by
  have hpackets : LineReadable getRootPackets := ⟨getRoot ++ ['\r', '\n'], by decide⟩
  have hwhole : LineReadable [utf8 getRoot ++ [13, 10]] := ⟨getRoot ++ ['\r', '\n'], by decide⟩
  obtain ⟨hparse, hsame⟩ :=
    parseRequest_iff delivery_getRootPackets (by decide : requestBufSize < 1025)
  exact ⟨hparse.2 hpackets, (hsame _ _ delivery_getRootWhole).2 (iff_of_true hpackets hwhole)⟩

/-- **A byte of a body** that comes with the request line, and is of no text: the request is not
parsed. -/
theorem parseRequest_fails : ¬∀ (method path version : Text) (rest : Bytes) (pieces : List Bytes),
    Delivery method path version rest pieces → ∀ turns, requestBufSize < turns →
      parseRequest turns pieces = some (.ok ⟨method, path⟩) := by
  intro h
  have hok := h _ _ _ _ _ delivery_getRootBody 1025 (by decide)
  have hunreadable : ¬LineReadable [utf8 getRoot ++ [13, 10, 255]] := by
    rintro ⟨s, hs⟩
    have hmem : (255 : UInt8) ∈ utf8 s := by
      rw [hs]
      decide
    exact absurd (lt_of_mem_utf8 hmem) (by decide)
  rcases delivery_getRootBody.parse (by decide : requestBufSize < 1025) with ⟨hread, -⟩ | ⟨-, herr⟩
  · exact hunreadable hread
  · rw [hok] at herr
    cases herr

end Http
end CS162

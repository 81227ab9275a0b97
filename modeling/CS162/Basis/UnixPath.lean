/-
# Paths

Paths are byte strings whose components are separated by slashes.  `pieces` is what is between the
slashes, empty pieces and dots included.  `push`, `pop`, `parent` and `fileName` are those of
Rust's `Path` and `PathBuf`, the first three for paths that do not begin with a slash.
-/

import CS162.Basis.Bytes
import Mathlib.Data.List.Basic
import Mathlib.Data.List.DropRight
import Mathlib.Tactic.Common

namespace CS162
namespace Basis

/-- A path's bytes. -/
abbrev UnixPath := List UInt8

/-- A name in a directory. -/
abbrev Name := List UInt8

def dot : Name := [46]

def dotDot : Name := [46, 46]

/-- A piece that leads nowhere. -/
def isSkip (c : Name) : Bool := c == [] || c == dot

/-- A piece that is a name. -/
def isName (c : Name) : Bool := !isSkip c && c != dotDot

/-- What is between the slashes. -/
def pieces (p : UnixPath) : List Name := p.splitOn 47

/-- Pieces with slashes between them. -/
def ofPieces (ps : List Name) : UnixPath := [47].intercalate ps

/-- Pieces without those at the end that lead nowhere; the first one is kept. -/
def trimEnd : List Name → List Name
  | [] => []
  | c :: cs => c :: cs.rdropWhile isSkip

/-- `Path::parent`. -/
def parent (p : UnixPath) : Option UnixPath :=
  match trimEnd (pieces p) with
  | [] => none
  | [c] => if c = [] then none else some []
  | ps => some (ofPieces (trimEnd ps.dropLast))

/-- `Path::file_name`. -/
def fileName (p : UnixPath) : Option Name :=
  match ((pieces p).filter fun c => !isSkip c).getLast? with
  | none => none
  | some c => if c = dotDot then none else some c

/-- `PathBuf::push`, of a name. -/
def push (p : UnixPath) (c : Name) : UnixPath :=
  if p = [] ∨ p.getLast? = some 47 then p ++ c else p ++ 47 :: c

/-- `PathBuf::pop`. -/
def pop (p : UnixPath) : UnixPath := (parent p).getD p

section Pieces

variable {p : UnixPath} {c : Name} {ps : List Name}

theorem pieces_ne_nil (p : UnixPath) : pieces p ≠ [] := List.splitOn_ne_nil _ _

theorem ofPieces_pieces (p : UnixPath) : ofPieces (pieces p) = p := List.intercalate_splitOn _

/-- No piece has a slash. -/
theorem not_mem_of_mem_pieces (hc : c ∈ pieces p) : (47 : UInt8) ∉ c := by
  induction p generalizing c with
  | nil =>
    obtain rfl := List.mem_singleton.1 hc
    exact List.not_mem_nil
  | cons x p ih =>
    unfold pieces at hc ih
    rw [List.splitOn_cons_eq_if_modifyHead] at hc
    split at hc
    · rcases List.mem_cons.1 hc with rfl | hc
      · exact List.not_mem_nil
      · exact ih hc
    · rename_i hx
      match hsplit : p.splitOn (47 : UInt8) with
      | [] => exact absurd hsplit (List.splitOn_ne_nil _ _)
      | d :: ds =>
        rw [hsplit, List.modifyHead_cons] at hc
        rcases List.mem_cons.1 hc with rfl | hc
        · rintro (_ | ⟨_, hmem⟩)
          · exact hx rfl
          · exact ih (hsplit ▸ List.mem_cons_self) hmem
        · exact ih (hsplit ▸ List.mem_cons_of_mem _ hc)

theorem pieces_ofPieces (hne : ps ≠ []) (h : ∀ c ∈ ps, (47 : UInt8) ∉ c) : pieces (ofPieces ps) = ps :=
  List.splitOn_intercalate _ h hne

/-- The pieces of a path with another name. -/
theorem pieces_append_slash (p : UnixPath) (hc : (47 : UInt8) ∉ c) :
    pieces (p ++ 47 :: c) = pieces p ++ [c] := by
  unfold pieces
  rw [List.splitOn_append_cons_self, List.splitOn_eq_singleton hc]

theorem pieces_push (hne : p ≠ []) (hc : (47 : UInt8) ∉ c) : pieces (push p c) = pieces p ++ [c] ∨
    ∃ q, pieces p = pieces q ++ [[]] ∧ pieces (push p c) = pieces q ++ [c] := by
  unfold push
  by_cases hlast : p.getLast? = some 47
  · right
    obtain ⟨q, rfl⟩ := List.getLast?_eq_some_iff.1 hlast
    rw [if_pos (.inr hlast), List.append_assoc, List.singleton_append]
    exact ⟨q, pieces_append_slash q List.not_mem_nil, pieces_append_slash q hc⟩
  · left
    rw [if_neg (not_or.2 ⟨hne, hlast⟩), pieces_append_slash p hc]

theorem trimEnd_isPrefix (ps : List Name) : trimEnd ps <+: ps := by
  match ps with
  | [] => exact List.prefix_rfl
  | c :: cs => exact (List.prefix_cons_inj c).2 (List.rdropWhile_prefix _ _)

theorem trimEnd_ne_nil (h : ps ≠ []) : trimEnd ps ≠ [] := by
  match ps, h with
  | c :: cs, _ => exact List.cons_ne_nil _ _

/-- What is trimmed leads nowhere. -/
theorem exists_trimEnd (ps : List Name) : ∃ qs, ps = trimEnd ps ++ qs ∧ ∀ c ∈ qs, isSkip c = true := by
  match ps with
  | [] => exact ⟨[], rfl, fun c hc => absurd hc List.not_mem_nil⟩
  | c :: cs =>
    refine ⟨cs.rtakeWhile isSkip, ?_, fun d hd => List.mem_rtakeWhile_imp hd⟩
    rw [trimEnd, List.cons_append, List.rdropWhile_append_rtakeWhile]

theorem trimEnd_append_skip (hne : ps ≠ []) (hc : isSkip c = true) : trimEnd (ps ++ [c]) = trimEnd ps := by
  match ps, hne with
  | d :: ds, _ => rw [List.cons_append, trimEnd, trimEnd, List.rdropWhile_concat_pos _ _ _ hc]

theorem trimEnd_append_name (hne : ps ≠ []) (hc : isSkip c = false) : trimEnd (ps ++ [c]) = ps ++ [c] := by
  match ps, hne with
  | d :: ds, _ =>
    rw [List.cons_append, trimEnd, List.rdropWhile_concat_neg _ _ _ (by rw [hc]; exact Bool.false_ne_true)]

/-- A path with fewer pieces is a prefix. -/
theorem ofPieces_isPrefix {qs : List Name} (h : qs <+: ps) : ofPieces qs <+: ofPieces ps := by
  obtain ⟨rs, rfl⟩ := h
  induction qs with
  | nil => exact List.nil_prefix
  | cons c qs ih =>
    match qs, rs with
    | [], [] => exact List.prefix_rfl
    | [], r :: rs =>
      unfold ofPieces
      rw [List.singleton_append, List.intercalate_cons_cons, List.intercalate_singleton,
        List.append_assoc]
      exact List.prefix_append _ _
    | d :: qs, rs =>
      unfold ofPieces at ih ⊢
      rw [List.cons_append, List.cons_append, List.intercalate_cons_cons, List.intercalate_cons_cons]
      exact (List.prefix_append_right_inj _).2 ih

/-- **Pushing a name and popping it** leaves the path without what leads nowhere at its end. -/
theorem pop_push (hne : p ≠ []) (hc : (47 : UInt8) ∉ c) (hskip : isSkip c = false) :
    pop (push p c) = ofPieces (trimEnd (pieces p)) := by
  have hpop : ∀ qs : List Name, qs ≠ [] → pieces (push p c) = qs ++ [c] →
      pop (push p c) = ofPieces (trimEnd qs) := by
    intro qs hqs hpieces
    unfold pop parent
    rw [hpieces, trimEnd_append_name hqs hskip]
    match qs, hqs with
    | d :: ds, _ =>
      have hdrop : (d :: ds ++ [c]).dropLast = d :: ds := List.dropLast_concat
      match ds with
      | [] => rfl
      | e :: ds =>
        show ofPieces (trimEnd (d :: e :: ds ++ [c]).dropLast) = _
        rw [hdrop]
  rcases pieces_push hne hc with hpieces | ⟨q, hq, hpieces⟩
  · exact hpop _ (pieces_ne_nil p) hpieces
  · rw [hpop _ (pieces_ne_nil q) hpieces, hq, trimEnd_append_skip (pieces_ne_nil q) rfl]

end Pieces

end Basis
end CS162

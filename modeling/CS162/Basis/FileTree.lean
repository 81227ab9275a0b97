/-
# A tree of files

A directory tree without links, and how the operating system finds what a path names
(`resolve`): piece by piece from a directory, each piece from a directory.  Where the pieces of
the path never lead out of the directory (`Inside`), what is found depends only on what the
directory has (`resolve_congr`).  They never do, whatever the tree, if no part of the path from
its start has more `..` than names (`inside_iff`).
-/

import CS162.Basis.UnixPath

namespace CS162
namespace Basis

/-- A file, a directory with its entries, or something else.  `allowed` says whether it can be
opened. -/
inductive Node
  | file (allowed : Bool) (content : List UInt8)
  | dir (allowed : Bool) (entries : List (Name × Node))
  | other

namespace Node

def isFile : Node → Bool
  | file .. => true
  | _ => false

def isDir : Node → Bool
  | dir .. => true
  | _ => false

/-- The entry with a name. -/
def child : Node → Name → Option Node
  | dir _ entries, c => (entries.find? fun e => e.1 == c).map Prod.snd
  | _, _ => none

/-- What is at a place, which is given by the names on the way to it. -/
def lookup : Node → List Name → Option Node
  | t, [] => some t
  | t, c :: cs => (t.child c).bind fun t => t.lookup cs

theorem lookup_append (t : Node) (cs ds : List Name) :
    t.lookup (cs ++ ds) = (t.lookup cs).bind fun t => t.lookup ds := by
  induction cs generalizing t with
  | nil => rfl
  | cons c cs ih =>
    rw [List.cons_append, lookup, lookup, Option.bind_assoc]
    exact congrArg _ (funext ih)

end Node

/-! ### Finding files -/

/-- `NAME_MAX`. -/
def componentMax : ℕ := 255

/-- `PATH_MAX`, the byte at the end included. -/
def pathMax : ℕ := 4096

/-- Where a piece leads from a place.  Nothing is above the root. -/
def stepTo (loc : List Name) (c : Name) : List Name :=
  if isSkip c then loc else if c = dotDot then loc.dropLast else loc ++ [c]

/-- Where pieces lead from a place.  Each is looked up in a directory. -/
def walk (root : Node) : List Name → List Name → Option (List Name)
  | loc, [] => some loc
  | loc, c :: cs =>
    if ((root.lookup loc).any Node.isDir && c.length ≤ componentMax) = true then walk root (stepTo loc c) cs
    else none

/-- What a relative path names, in the working directory `cwd`. -/
def resolve (root : Node) (cwd : List Name) (p : UnixPath) : Option Node :=
  if 0 ∈ p ∨ pathMax ≤ p.length then none
  else (walk root cwd (pieces p)).bind root.lookup

/-- Where a relative path leads. -/
def locate (root : Node) (cwd : List Name) (p : UnixPath) : Option (List Name) :=
  if 0 ∈ p ∨ pathMax ≤ p.length then none else walk root cwd (pieces p)

/-- A path that the system looks up. -/
structure Openable (p : UnixPath) : Prop where
  noNull : 0 ∉ p
  short : p.length < pathMax
  names : ∀ c ∈ pieces p, c.length ≤ componentMax

/-- No place on the way of these pieces is outside of a directory. -/
def InsideFrom (cwd : List Name) : List Name → List Name → Prop
  | loc, [] => cwd <+: loc
  | loc, c :: cs => cwd <+: loc ∧ InsideFrom cwd (stepTo loc c) cs

instance decidableInsideFrom (cwd : List Name) :
    (loc ps : List Name) → Decidable (InsideFrom cwd loc ps)
  | loc, [] => inferInstanceAs (Decidable (cwd <+: loc))
  | loc, c :: cs =>
    have := decidableInsideFrom cwd (stepTo loc c) cs
    inferInstanceAs (Decidable (cwd <+: loc ∧ InsideFrom cwd (stepTo loc c) cs))

/-- **The path never leads out of the directory**, piece by piece. -/
def Inside (cwd : List Name) (p : UnixPath) : Prop := InsideFrom cwd cwd (pieces p)

instance (cwd : List Name) (p : UnixPath) : Decidable (Inside cwd p) := decidableInsideFrom _ _ _

/-- No part from the start has more `..` than names and `d`. -/
def BalancedFrom (d : ℕ) (ps : List Name) : Prop :=
  ∀ qs, qs <+: ps → qs.count dotDot ≤ qs.countP isName + d

/-- **No part of the path from its start has more `..` than names.** -/
def Balanced (p : UnixPath) : Prop := BalancedFrom 0 (pieces p)

/-! ### Counting pieces -/

section Pieces

variable {d : ℕ} {c : Name} {ps qs : List Name}

/-- A piece leads nowhere, up, or down. -/
theorem piece_cases (c : Name) : (isSkip c = true ∧ c ≠ dotDot ∧ isName c = false) ∨
    (isSkip c = false ∧ c = dotDot ∧ isName c = false) ∨
    (isSkip c = false ∧ c ≠ dotDot ∧ isName c = true) := by
  unfold isName
  by_cases hup : c = dotDot
  · subst hup
    exact .inr (.inl ⟨rfl, rfl, rfl⟩)
  · cases hskip : isSkip c with
    | true => exact .inl ⟨rfl, hup, rfl⟩
    | false => exact .inr (.inr ⟨rfl, hup, by simp [hup]⟩)

theorem balancedFrom_nil : BalancedFrom d [] := fun qs hqs => by
  rw [List.prefix_nil.1 hqs]
  exact Nat.zero_le _

/-- Whatever holds of the parts of `c :: ps` is about the empty one, and about the parts of `ps`. -/
theorem balancedFrom_cons {u n : ℕ} (hu : ∀ qs, (c :: qs).count dotDot = qs.count dotDot + u)
    (hn : ∀ qs, (c :: qs).countP isName = qs.countP isName + n) :
    BalancedFrom d (c :: ps) ↔ ∀ qs, qs <+: ps → qs.count dotDot + u ≤ qs.countP isName + n + d := by
  constructor
  · intro h qs hqs
    have hle := h (c :: qs) ((List.prefix_cons_inj c).2 hqs)
    rwa [hu, hn] at hle
  · intro h qs hqs
    match qs, hqs with
    | [], _ => exact Nat.zero_le _
    | a :: qs, hqs =>
      obtain ⟨rfl, hpre⟩ := List.cons_prefix_cons.1 hqs
      rw [hu, hn]
      exact h qs hpre

theorem balancedFrom_skip (hskip : isSkip c = true) : BalancedFrom d (c :: ps) ↔ BalancedFrom d ps := by
  rcases piece_cases c with ⟨-, hup, hname⟩ | ⟨hno, -⟩ | ⟨hno, -⟩
  · exact balancedFrom_cons (u := 0) (n := 0) (fun qs => List.count_cons_of_ne hup)
      fun qs => List.countP_cons_of_neg (by rw [hname]; exact Bool.false_ne_true)
  · rw [hskip] at hno
    cases hno
  · rw [hskip] at hno
    cases hno

/-- A `..` goes up one directory. -/
theorem balancedFrom_up : BalancedFrom d (dotDot :: ps) ↔ 0 < d ∧ BalancedFrom (d - 1) ps := by
  rw [balancedFrom_cons (u := 1) (n := 0) (fun qs => List.count_cons_self)
    fun qs => List.countP_cons_of_neg (by decide)]
  constructor
  · intro h
    have hnil := h [] List.nil_prefix
    rw [List.count_nil, List.countP_nil] at hnil
    refine ⟨by omega, fun qs hqs => ?_⟩
    have hle := h qs hqs
    omega
  · rintro ⟨hd, h⟩ qs hqs
    have hle := h qs hqs
    omega

/-- A name goes down one. -/
theorem balancedFrom_name (hname : isName c = true) :
    BalancedFrom d (c :: ps) ↔ BalancedFrom (d + 1) ps := by
  have hup : c ≠ dotDot := by
    rintro rfl
    cases hname
  rw [balancedFrom_cons (u := 0) (n := 1) (fun qs => List.count_cons_of_ne hup)
    fun qs => List.countP_cons_of_pos hname]
  constructor
  · intro h qs hqs
    have hle := h qs hqs
    omega
  · intro h qs hqs
    have hle := h qs hqs
    omega

theorem BalancedFrom.of_isPrefix (h : BalancedFrom d ps) (hqs : qs <+: ps) : BalancedFrom d qs :=
  fun rs hrs => h rs (hrs.trans hqs)

/-- Pieces at the end that lead nowhere, or down, do no harm. -/
theorem BalancedFrom.append (h : BalancedFrom d ps) (hqs : ∀ c ∈ qs, c ≠ dotDot) :
    BalancedFrom d (ps ++ qs) := by
  intro rs hrs
  rcases List.prefix_or_prefix_of_prefix hrs (List.prefix_append ps qs) with hrs | ⟨ss, rfl⟩
  · exact h rs hrs
  · have hss := (List.prefix_append_right_inj ps).1 hrs
    have hle := h ps List.prefix_rfl
    have hcount : ss.count dotDot = 0 := List.count_eq_zero.2 fun hmem => hqs _ (hss.subset hmem) rfl
    rw [List.count_append, List.countP_append, hcount]
    omega

/-- **Where pieces lead.**  From a place below `cwd`, which is not the root, they do not lead out of
it exactly if the `..` among them never outnumber the names and the levels below. -/
theorem insideFrom_iff {cwd stack : List Name} (hne : cwd ≠ []) :
    InsideFrom cwd (cwd ++ stack) ps ↔ BalancedFrom stack.length ps := by
  induction ps generalizing stack with
  | nil => exact iff_of_true (List.prefix_append _ _) balancedFrom_nil
  | cons c ps ih =>
    rw [InsideFrom, and_iff_right (List.prefix_append _ _), stepTo]
    rcases piece_cases c with ⟨hskip, -, -⟩ | ⟨hskip, rfl, -⟩ | ⟨hskip, hup, hname⟩
    · rw [if_pos hskip, ih, balancedFrom_skip hskip]
    · rw [hskip, if_neg Bool.false_ne_true, if_pos rfl, balancedFrom_up]
      by_cases hstack : stack = []
      · subst hstack
        refine iff_of_false (fun h => ?_) fun h => Nat.lt_irrefl 0 h.1
        rw [List.append_nil] at h
        have hpre : cwd <+: cwd.dropLast := by
          match ps, h with
          | [], h => exact h
          | c :: ps, h => exact h.1
        have hlen := hpre.length_le
        have hpos := List.length_pos_iff.2 hne
        rw [List.length_dropLast] at hlen
        omega
      · rw [List.dropLast_append_of_ne_nil hstack, ih, List.length_dropLast,
          and_iff_right (List.length_pos_iff.2 hstack)]
    · rw [hskip, if_neg Bool.false_ne_true, if_neg hup, List.append_assoc, ih, List.length_append,
        balancedFrom_name hname]
      rfl

theorem insideFrom_root (loc ps : List Name) : InsideFrom [] loc ps := by
  induction ps generalizing loc with
  | nil => exact List.nil_prefix
  | cons c ps ih => exact ⟨List.nil_prefix, ih _⟩

end Pieces

/-- **Paths that stay inside**, whatever the directory. -/
theorem inside_of_balanced {p : UnixPath} (h : Balanced p) (cwd : List Name) : Inside cwd p := by
  by_cases hne : cwd = []
  · subst hne
    exact insideFrom_root _ _
  · have hinside : InsideFrom cwd (cwd ++ []) (pieces p) := (insideFrom_iff hne).2 h
    rwa [List.append_nil] at hinside

theorem inside_iff {cwd : List Name} (hne : cwd ≠ []) {p : UnixPath} : Inside cwd p ↔ Balanced p := by
  have hiff : InsideFrom cwd (cwd ++ []) (pieces p) ↔ Balanced p := insideFrom_iff hne
  rwa [List.append_nil] at hiff

/-! ### What is found -/

section Found

variable {root root' : Node} {cwd : List Name} {p : UnixPath}

/-- Below a directory that is the same in two trees, they are the same. -/
theorem lookup_congr (h : root.lookup cwd = root'.lookup cwd) {loc : List Name} (hloc : cwd <+: loc) :
    root.lookup loc = root'.lookup loc := by
  obtain ⟨stack, rfl⟩ := hloc
  rw [Node.lookup_append, Node.lookup_append, h]

theorem walk_congr (h : root.lookup cwd = root'.lookup cwd) {loc ps : List Name}
    (hinside : InsideFrom cwd loc ps) :
    (walk root loc ps).bind root.lookup = (walk root' loc ps).bind root'.lookup := by
  induction ps generalizing loc with
  | nil => exact lookup_congr h hinside
  | cons c ps ih =>
    rw [walk, walk, lookup_congr h hinside.1]
    split
    · exact ih hinside.2
    · rfl

/-- **What is found inside a directory** depends on the directory only. -/
theorem resolve_congr (h : root.lookup cwd = root'.lookup cwd) (hinside : Inside cwd p) :
    resolve root cwd p = resolve root' cwd p := by
  unfold resolve
  split
  · rfl
  · exact walk_congr h hinside

/-- What is not openable is not found. -/
theorem walk_names {loc loc' ps : List Name} (h : walk root loc ps = some loc') :
    ∀ c ∈ ps, c.length ≤ componentMax := by
  induction ps generalizing loc with
  | nil => exact fun c hc => absurd hc List.not_mem_nil
  | cons c ps ih =>
    rw [walk] at h
    split at h
    · rename_i hc
      rw [Bool.and_eq_true, decide_eq_true_eq] at hc
      exact List.forall_mem_cons.2 ⟨hc.2, ih h⟩
    · cases h

theorem exists_of_resolve {t : Node} (h : resolve root cwd p = some t) :
    ∃ loc, root.lookup loc = some t := by
  unfold resolve at h
  split at h
  · cases h
  · obtain ⟨loc, -, hlookup⟩ := Option.bind_eq_some_iff.1 h
    exact ⟨loc, hlookup⟩

theorem openable_of_resolve {t : Node} (h : resolve root cwd p = some t) : Openable p := by
  unfold resolve at h
  split at h
  · cases h
  · rename_i hno
    obtain ⟨hnull, hlen⟩ := not_or.1 hno
    obtain ⟨loc, hwalk, -⟩ := Option.bind_eq_some_iff.1 h
    exact ⟨hnull, Nat.lt_of_not_le hlen, walk_names hwalk⟩

theorem resolve_eq : resolve root cwd p = (locate root cwd p).bind root.lookup := by
  unfold resolve locate
  split_ifs
  · rfl
  · rfl

end Found

/-! ### Where a path leads -/

section Locate

variable {root : Node} {loc loc' ps qs : List Name} {c : Name} {i : ℕ}

theorem walk_append : walk root loc (ps ++ qs) = (walk root loc ps).bind fun l => walk root l qs := by
  induction ps generalizing loc with
  | nil => rfl
  | cons c ps ih =>
    rw [List.cons_append, walk, walk]
    split
    · exact ih
    · rfl

/-- One piece, from a directory. -/
theorem walk_singleton (hdir : (root.lookup loc).any Node.isDir = true)
    (hc : c.length ≤ componentMax) : walk root loc [c] = some (stepTo loc c) := by
  rw [walk, hdir, decide_eq_true hc]
  rfl

theorem walk_cons (h : walk root loc (c :: ps) = some loc') :
    walk root (stepTo loc c) ps = some loc' := by
  rw [walk] at h
  split at h
  · exact h
  · cases h

/-- Without `..` the names on the way are those of the path. -/
theorem walk_eq (h : walk root loc ps = some loc') (hup : dotDot ∉ ps) :
    loc' = loc ++ ps.filter fun c => !isSkip c := by
  induction ps generalizing loc with
  | nil =>
    obtain rfl := Option.some.inj h
    exact (List.append_nil loc).symm
  | cons c ps ih =>
    have hc : c ≠ dotDot := fun heq => hup (heq ▸ List.mem_cons_self)
    have hrest : dotDot ∉ ps := fun hmem => hup (List.mem_cons_of_mem _ hmem)
    rw [ih (walk_cons h) hrest, stepTo]
    cases hskip : isSkip c with
    | true => rw [if_pos rfl, List.filter_cons_of_neg (by rw [hskip]; exact Bool.false_ne_true)]
    | false =>
      rw [if_neg Bool.false_ne_true, if_neg hc, List.append_assoc,
        List.filter_cons_of_pos (by rw [hskip]; rfl)]
      rfl

/-- A path leads no deeper than it has names. -/
theorem length_walk (h : walk root loc ps = some loc') :
    loc'.length ≤ loc.length + ps.countP fun c => !isSkip c := by
  induction ps generalizing loc with
  | nil =>
    obtain rfl := Option.some.inj h
    exact Nat.le_refl _
  | cons c ps ih =>
    have hle := ih (walk_cons h)
    rw [List.countP_cons]
    rw [stepTo] at hle
    cases hskip : isSkip c with
    | true =>
      rw [hskip, if_pos rfl] at hle
      exact hle
    | false =>
      rw [hskip, if_neg Bool.false_ne_true] at hle
      rw [Bool.not_false, if_pos rfl]
      split at hle
      · rw [List.length_dropLast] at hle
        omega
      · rw [List.length_append, List.length_singleton] at hle
        omega

/-- What a path adds to a place is its pieces. -/
theorem getElem?_walk {x : Name} (h : walk root loc ps = some loc') (hx : loc'[i]? = some x) :
    loc[i]? = some x ∨ x ∈ ps := by
  induction ps generalizing loc with
  | nil =>
    obtain rfl := Option.some.inj h
    exact .inl hx
  | cons c ps ih =>
    rcases ih (walk_cons h) with hold | hnew
    · rw [stepTo] at hold
      split at hold
      · exact .inl hold
      · split at hold
        · rw [List.getElem?_dropLast] at hold
          split at hold
          · exact .inl hold
          · cases hold
        · rcases Nat.lt_or_ge i loc.length with hlt | hge
          · rw [List.getElem?_append_left hlt] at hold
            exact .inl hold
          · rw [List.getElem?_append_right hge] at hold
            obtain rfl := List.mem_singleton.1 (List.mem_of_getElem? hold)
            exact .inr List.mem_cons_self
    · exact .inr (List.mem_cons_of_mem _ hnew)

end Locate

/-! ### A tree with all directories -/

/-- Directories of these names, so many levels deep. -/
def allDirs (names : List Name) : ℕ → Node
  | 0 => .dir true []
  | depth + 1 => .dir true (names.map fun c => (c, allDirs names depth))

section AllDirs

variable {names : List Name} {depth : ℕ} {c : Name}

theorem child_allDirs (hc : c ∈ names) : (allDirs names (depth + 1)).child c = some (allDirs names depth) := by
  have hfind : ∀ l : List Name, c ∈ l →
      ((l.map fun c => (c, allDirs names depth)).find? fun e => e.1 == c) = some (c, allDirs names depth) := by
    intro l hl
    induction l with
    | nil => exact absurd hl List.not_mem_nil
    | cons d l ih =>
      rw [List.map_cons, List.find?_cons]
      by_cases hd : d = c
      · subst hd
        simp
      · rw [beq_false_of_ne hd]
        exact ih ((List.mem_cons.1 hl).resolve_left (Ne.symm hd))
  rw [allDirs, Node.child, hfind names hc]
  rfl

theorem lookup_allDirs {loc : List Name} (hloc : ∀ c ∈ loc, c ∈ names) (hdepth : loc.length ≤ depth) :
    (allDirs names depth).lookup loc = some (allDirs names (depth - loc.length)) := by
  induction loc generalizing depth with
  | nil => rfl
  | cons c loc ih =>
    obtain ⟨depth, rfl⟩ : ∃ n, depth = n + 1 := Nat.exists_eq_succ_of_ne_zero (by
      rw [List.length_cons] at hdepth
      omega)
    obtain ⟨hc, hloc⟩ := List.forall_mem_cons.1 hloc
    rw [List.length_cons] at hdepth
    rw [Node.lookup, child_allDirs hc, Option.bind_some, ih hloc (by omega), List.length_cons,
      Nat.add_sub_add_right]

theorem allDirs_eq (names : List Name) (depth : ℕ) : ∃ entries, allDirs names depth = .dir true entries := by
  match depth with
  | 0 => exact ⟨_, rfl⟩
  | depth + 1 => exact ⟨_, rfl⟩

/-- There are only directories. -/
theorem not_file_allDirs {loc : List Name} {t : Node} (h : (allDirs names depth).lookup loc = some t) :
    t.isFile = false := by
  induction loc generalizing depth with
  | nil =>
    obtain ⟨entries, hdir⟩ := allDirs_eq names depth
    rw [Node.lookup, hdir] at h
    obtain rfl := Option.some.inj h
    rfl
  | cons c loc ih =>
    rw [Node.lookup] at h
    obtain ⟨t', hchild, h⟩ := Option.bind_eq_some_iff.1 h
    match depth, hchild with
    | 0, hchild => cases hchild
    | depth + 1, hchild =>
      obtain ⟨e, he, rfl⟩ := Option.map_eq_some_iff.1 hchild
      obtain ⟨d, -, rfl⟩ := List.mem_map.1 (List.mem_of_find?_eq_some he)
      exact ih h

/-- Every path of these names leads to a directory. -/
theorem walk_allDirs {loc ps : List Name} (hloc : ∀ c ∈ loc, c ∈ names) (hps : ∀ c ∈ ps, c ∈ names)
    (hlen : ∀ c ∈ ps, c.length ≤ componentMax) (hdepth : loc.length + ps.length ≤ depth) :
    ∃ entries, (walk (allDirs names depth) loc ps).bind (allDirs names depth).lookup =
      some (.dir true entries) := by
  induction ps generalizing loc with
  | nil =>
    obtain ⟨entries, hdir⟩ := allDirs_eq names (depth - loc.length)
    refine ⟨entries, ?_⟩
    rw [walk, Option.bind_some, lookup_allDirs hloc hdepth, hdir]
  | cons c ps ih =>
    obtain ⟨hc, hps⟩ := List.forall_mem_cons.1 hps
    obtain ⟨hcl, hlen⟩ := List.forall_mem_cons.1 hlen
    rw [List.length_cons] at hdepth
    obtain ⟨entries, hdir⟩ := allDirs_eq names (depth - loc.length)
    have hcond : (((allDirs names depth).lookup loc).any Node.isDir && decide (c.length ≤ componentMax)) = true := by
      rw [lookup_allDirs hloc (by omega), hdir, decide_eq_true hcl]
      rfl
    rw [walk, if_pos hcond]
    refine ih ?_ hps hlen ?_
    · unfold stepTo
      split
      · exact hloc
      · split
        · exact fun d hd => hloc d (List.dropLast_subset _ hd)
        · exact List.forall_mem_append.2 ⟨hloc, fun d hd => List.mem_singleton.1 hd ▸ hc⟩
    · unfold stepTo
      split
      · omega
      · split
        · rw [List.length_dropLast]
          omega
        · rw [List.length_append, List.length_singleton]
          omega

/-- **Every openable path leads to a directory** in a tree that has all its pieces. -/
theorem resolve_allDirs {cwd : List Name} {p : UnixPath} (h : Openable p) (hcwd : ∀ c ∈ cwd, c ∈ names)
    (hp : ∀ c ∈ pieces p, c ∈ names) (hdepth : cwd.length + (pieces p).length ≤ depth) :
    ∃ entries, resolve (allDirs names depth) cwd p = some (.dir true entries) := by
  unfold resolve
  rw [if_neg (not_or.2 ⟨h.noNull, Nat.not_le_of_lt h.short⟩)]
  exact walk_allDirs hcwd hp h.names hdepth

end AllDirs

end Basis
end CS162

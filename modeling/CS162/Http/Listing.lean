/-
# The links of a directory's page

`hw-http-rs/src/server.rs`, lines 112-147 and 61-75: the link that `handle_directory_request` makes
for an entry, and what `handle_socket` looks up for it.

`format_href` takes `./` out of the whole path, so that it joins a name that ends in a dot and the
next one (`merge`).  A link leads back to its entry exactly if no name on the way to the directory
ends in a dot, and the entry's name is a text (`leadsBack_iff`).
-/

import CS162.Http.Server

namespace CS162
namespace Http

open CS162.Basis

/-- Names with slashes between them. -/
def slashJoin (names : List Text) : Text := ['/'].intercalate names

/-- A request for a directory, by the names that lead to it, with slashes behind them. -/
def dirRequest (names : List Text) (slashes : ℕ) : Request :=
  ⟨"GET".toList, '/' :: slashJoin names ++ List.replicate slashes '/'⟩

/-- The path of an entry, as `read_dir` gives it. -/
def entryPath (request : Request) (name : Name) : UnixPath :=
  push (pop (push (requestPath request) indexHtml)) name

/-- The request for an entry's link. -/
def linkRequest (lossy : Bytes → Text) (request : Request) (name : Name) : Request :=
  ⟨"GET".toList, formatHref lossy (entryPath request name)⟩

/-- A name that stands for itself. -/
structure PlainName (n : Text) : Prop where
  ne_nil : n ≠ []
  noSlash : '/' ∉ n
  ne_dot : n ≠ ['.']
  ne_dotDot : n ≠ ['.', '.']

/-- A name that a directory can have. -/
structure EntryName (name : Name) : Prop where
  isName : isName name = true
  noSlash : (47 : UInt8) ∉ name
  noNull : 0 ∉ name
  short : name.length ≤ componentMax

/-- **The entry is on the page**: the request leads to a directory that has it and no index. -/
structure Listed (root : Node) (cwd : List Name) (names : List Text) (slashes : ℕ) (name : Name) :
    Prop where
  plain : ∀ n ∈ names, PlainName n
  /-- `parse_request` reads so many bytes. -/
  fits : (utf8 (dirRequest names slashes).path).length ≤ requestBufSize
  dir : ∃ entries node, resolve root cwd (requestPath (dirRequest names slashes)) =
    some (.dir true entries) ∧ (name, node) ∈ entries
  noIndex : (resolve root cwd (push (requestPath (dirRequest names slashes)) indexHtml)).any
    Node.isFile = false
  entry : EntryName name

/-- **The link leads back to its entry.** -/
def LeadsBack (lossy : Bytes → Text) (root : Node) (cwd : List Name) (names : List Text)
    (slashes : ℕ) (name : Name) : Prop :=
  locate root cwd (requestPath (linkRequest lossy (dirRequest names slashes) name)) =
    some (cwd ++ names.map utf8 ++ [name])

/-! ### What `format_href` makes of names -/

/-- The names of a path after `./` has been taken out of it, with the last one `e`. -/
def merge : List Text → Text → List Text
  | [], e => [e]
  | n :: ns, e =>
    if n.getLast? = some '.' then (merge ns e).modifyHead (n.dropLast ++ ·) else n :: merge ns e

section Merge

variable {n e rest : Text} {ns : List Text}

theorem replaceDotSlash_cons {c : Char} {s : Text} (h : c ≠ '.' ∨ s.head? ≠ some '/') :
    replaceDotSlash (c :: s) = c :: replaceDotSlash s := by
  rw [replaceDotSlash]
  rintro rest rfl rfl
  rcases h with h | h
  · exact h rfl
  · exact h rfl

theorem replaceDotSlash_name (h : '/' ∉ e) : replaceDotSlash e = e := by
  induction e with
  | nil => rfl
  | cons c e ih =>
    have hhead : e.head? ≠ some '/' := fun heq =>
      h (List.mem_cons_of_mem _ (List.mem_of_head? heq))
    rw [replaceDotSlash_cons (.inr hhead), ih fun hmem => h (List.mem_cons_of_mem _ hmem)]

/-- A name and the slash behind it. -/
theorem replaceDotSlash_append (h : '/' ∉ n) (hne : n ≠ []) :
    replaceDotSlash (n ++ '/' :: rest) =
      if n.getLast? = some '.' then n.dropLast ++ replaceDotSlash rest
      else n ++ '/' :: replaceDotSlash rest := by
  induction n with
  | nil => exact absurd rfl hne
  | cons c n ih =>
    have hrest : '/' ∉ n := fun hmem => h (List.mem_cons_of_mem _ hmem)
    match n with
    | [] =>
      rw [List.getLast?_singleton]
      by_cases hc : c = '.'
      · subst hc
        rw [if_pos rfl]
        rfl
      · rw [if_neg fun heq => hc (Option.some.inj heq), List.singleton_append,
          replaceDotSlash_cons (.inl hc), replaceDotSlash_cons (.inl (by decide))]
        rfl
    | d :: n =>
      have hhead : (d :: n ++ '/' :: rest).head? ≠ some '/' := fun heq =>
        hrest (Option.some.inj heq ▸ List.mem_cons_self)
      rw [List.cons_append, replaceDotSlash_cons (.inr hhead), ih hrest (List.cons_ne_nil d n),
        List.getLast?_cons_cons, List.dropLast_cons_cons]
      split
      · rfl
      · rfl

theorem slashJoin_cons (h : ns ≠ []) : slashJoin (n :: ns) = n ++ '/' :: slashJoin ns := by
  rw [slashJoin, List.intercalate_cons_of_ne_nil h, List.append_assoc]
  rfl

theorem merge_ne_nil (ns : List Text) (e : Text) : merge ns e ≠ [] := by
  induction ns with
  | nil => exact List.cons_ne_nil _ _
  | cons n ns ih =>
    rw [merge]
    split
    · match hm : merge ns e with
      | [] => exact absurd hm ih
      | m :: ms => exact List.cons_ne_nil _ _
    · exact List.cons_ne_nil _ _

theorem slashJoin_modifyHead {ms : List Text} (h : ms ≠ []) :
    slashJoin (ms.modifyHead (n ++ ·)) = n ++ slashJoin ms := by
  match ms, h with
  | [m], _ => exact (List.intercalate_singleton).trans (congrArg _ List.intercalate_singleton.symm)
  | m :: m' :: ms, _ =>
    rw [List.modifyHead_cons, slashJoin_cons (List.cons_ne_nil _ _),
      slashJoin_cons (List.cons_ne_nil _ _), List.append_assoc]

/-- **`replace` joins a name that ends in a dot and the next one.** -/
theorem replaceDotSlash_join (hns : ∀ n ∈ ns, '/' ∉ n ∧ n ≠ []) (he : '/' ∉ e) :
    replaceDotSlash (slashJoin (ns ++ [e])) = slashJoin (merge ns e) := by
  induction ns with
  | nil =>
    rw [List.nil_append, merge, slashJoin, List.intercalate_singleton, replaceDotSlash_name he]
  | cons n ns ih =>
    obtain ⟨⟨hn, hne⟩, hrest⟩ := List.forall_mem_cons.1 hns
    rw [List.cons_append, slashJoin_cons (List.append_ne_nil_of_right_ne_nil _ (List.cons_ne_nil _ _)),
      replaceDotSlash_append hn hne, ih hrest, merge]
    split
    · exact (slashJoin_modifyHead (merge_ne_nil ns e)).symm
    · exact (slashJoin_cons (merge_ne_nil ns e)).symm

/-- Names that do not end in dots are kept. -/
theorem merge_eq (h : ∀ n ∈ ns, n.getLast? ≠ some '.') : merge ns e = ns ++ [e] := by
  induction ns with
  | nil => rfl
  | cons n ns ih =>
    obtain ⟨hn, hrest⟩ := List.forall_mem_cons.1 h
    rw [merge, if_neg hn, ih hrest]
    rfl

/-- Each of the others is lost. -/
theorem length_merge : (merge ns e).length = (ns.countP fun n => n.getLast? ≠ some '.') + 1 := by
  induction ns with
  | nil => rfl
  | cons n ns ih =>
    rw [merge, List.countP_cons]
    split
    · rename_i hn
      rw [List.length_modifyHead, ih, if_neg (by simp [hn]), Nat.add_zero]
    · rename_i hn
      rw [List.length_cons, ih, if_pos (by simp [hn])]

/-- Merging puts no slash into a name. -/
theorem noSlash_merge (hns : ∀ n ∈ ns, '/' ∉ n) (he : '/' ∉ e) : ∀ m ∈ merge ns e, '/' ∉ m := by
  induction ns with
  | nil => exact List.forall_mem_singleton.2 he
  | cons n ns ih =>
    obtain ⟨hn, hrest⟩ := List.forall_mem_cons.1 hns
    have hall := ih hrest
    rw [merge]
    split
    · match hm : merge ns e with
      | [] => exact fun m hmem => absurd hmem List.not_mem_nil
      | m :: ms =>
        rw [hm] at hall
        obtain ⟨hm, hms⟩ := List.forall_mem_cons.1 hall
        refine List.forall_mem_cons.2 ⟨fun hmem => ?_, hms⟩
        rcases List.mem_append.1 hmem with hleft | hright
        · exact hn (List.dropLast_subset n hleft)
        · exact hm hright
    · exact List.forall_mem_cons.2 ⟨hn, hall⟩

end Merge

/-! ### Paths of names -/

section Paths

variable {names ts : List Text} {slashes : ℕ} {name : Name} {p : UnixPath} {n : Text}

theorem slash_not_mem_utf8 (h : '/' ∉ n) : (47 : UInt8) ∉ utf8 n := fun hmem => by
  obtain ⟨c, hc, heq⟩ := exists_of_mem_utf8 hmem (by decide)
  have hslash : c = '/' := Char.ext (UInt32.toNat_inj.1 heq)
  exact h (hslash ▸ hc)

theorem utf8_slashJoin (ts : List Text) : utf8 (slashJoin ts) = ofPieces (ts.map utf8) := by
  induction ts with
  | nil => rfl
  | cons t ts ih =>
    match ts with
    | [] =>
      rw [slashJoin, List.intercalate_singleton]
      exact List.intercalate_singleton.symm
    | u :: us =>
      rw [slashJoin_cons (List.cons_ne_nil u us), utf8_append, utf8_cons, ih]
      unfold ofPieces
      rw [List.map_cons, List.map_cons, List.map_cons, List.intercalate_cons_cons, List.append_assoc]
      rfl

/-- The pieces of a text are texts. -/
theorem pieces_utf8 (h : ∀ t ∈ ts, '/' ∉ t) (hne : ts ≠ []) :
    pieces (utf8 (slashJoin ts)) = ts.map utf8 := by
  rw [utf8_slashJoin]
  refine pieces_ofPieces (fun hnil => hne (List.map_eq_nil_iff.1 hnil)) fun c hc => ?_
  obtain ⟨t, ht, rfl⟩ := List.mem_map.1 hc
  exact slash_not_mem_utf8 (h t ht)

/-- No part of a split path holds a slash. -/
theorem slash_not_mem_splitOn {s t : Text} (h : t ∈ s.splitOn '/') : '/' ∉ t := by
  induction s generalizing t with
  | nil =>
    obtain rfl := List.mem_singleton.1 h
    exact List.not_mem_nil
  | cons c s ih =>
    rw [List.splitOn_cons_eq_if_modifyHead] at h
    split at h
    · rcases List.mem_cons.1 h with rfl | h
      · exact List.not_mem_nil
      · exact ih h
    · rename_i hc
      match hsplit : s.splitOn '/' with
      | [] => exact absurd hsplit (List.splitOn_ne_nil _ _)
      | d :: ds =>
        rw [hsplit] at h ih
        rcases List.mem_cons.1 h with rfl | h
        · intro hmem
          rcases List.mem_cons.1 hmem with heq | hmem
          · exact hc (beq_iff_eq.2 heq.symm)
          · exact ih List.mem_cons_self hmem
        · exact ih (List.mem_cons_of_mem _ h)

theorem exists_of_mem_pieces {s : Text} {c : Name} (h : c ∈ pieces (utf8 s)) : ∃ t, utf8 t = c := by
  have hs : slashJoin (s.splitOn '/') = s := List.intercalate_splitOn _
  rw [← hs, pieces_utf8 (fun t ht => slash_not_mem_splitOn ht) (List.splitOn_ne_nil _ _)] at h
  obtain ⟨t, -, rfl⟩ := List.mem_map.1 h
  exact ⟨t, rfl⟩

theorem isSkip_utf8 (h : PlainName n) : isSkip (utf8 n) = false := by
  have hnil : utf8 n ≠ [] := fun heq => h.ne_nil (utf8_inj (heq.trans utf8_nil.symm))
  have hdot : utf8 n ≠ dot := fun heq => h.ne_dot (utf8_inj heq)
  unfold isSkip
  simp [hnil, hdot]

theorem isSkip_names (h : ∀ n ∈ names, PlainName n) : ∀ c ∈ names.map utf8, isSkip c = false :=
  fun c hc => by
    obtain ⟨n, hn, rfl⟩ := List.mem_map.1 hc
    exact isSkip_utf8 (h n hn)

theorem utf8_ne_dotDot (h : PlainName n) : utf8 n ≠ dotDot := fun heq => h.ne_dotDot (utf8_inj heq)

theorem dotDot_not_mem (h : ∀ n ∈ names, PlainName n) : dotDot ∉ dot :: names.map utf8 := fun hmem => by
  rcases List.mem_cons.1 hmem with heq | hmem
  · exact absurd heq (by decide)
  · obtain ⟨n, hn, heq⟩ := List.mem_map.1 hmem
    exact utf8_ne_dotDot (h n hn) heq

theorem filter_names (h : ∀ n ∈ names, PlainName n) :
    (dot :: names.map utf8).filter (fun c => !isSkip c) = names.map utf8 := by
  rw [List.filter_cons_of_neg (by decide), List.filter_eq_self]
  intro c hc
  rw [isSkip_names h c hc]
  rfl

theorem mem_utf8_slash (h : '/' ∈ n) : (47 : UInt8) ∈ utf8 n :=
  List.mem_flatMap.2 ⟨'/', h, List.mem_singleton.2 rfl⟩

theorem pop_isPrefix (hne : p ≠ []) : pop (push p indexHtml) <+: p := by
  rw [pop_push hne (by decide) (by decide)]
  have hof := ofPieces_isPrefix (trimEnd_isPrefix (pieces p))
  rwa [ofPieces_pieces] at hof

theorem push_bounds {c : Name} (hp : 0 ∉ p) (hc : 0 ∉ c) :
    0 ∉ push p c ∧ (push p c).length ≤ p.length + 1 + c.length := by
  unfold push
  split_ifs
  · rw [List.mem_append, List.length_append]
    exact ⟨not_or.2 ⟨hp, hc⟩, by omega⟩
  · rw [List.mem_append, List.length_append, List.length_cons]
    refine ⟨not_or.2 ⟨hp, fun hmem => ?_⟩, by omega⟩
    rcases List.mem_cons.1 hmem with heq | hmem
    · exact absurd heq (by decide)
    · exact hc hmem

/-- The pieces of a request's path. -/
theorem pieces_dirRequest (h : ∀ n ∈ names, PlainName n) (slashes : ℕ) :
    ∃ empty : List Name, (∀ c ∈ empty, c = []) ∧
      pieces (requestPath (dirRequest names slashes)) = dot :: names.map utf8 ++ empty := by
  have hnames : ∃ empty : List Name, (∀ c ∈ empty, c = []) ∧
      pieces (utf8 ('.' :: '/' :: slashJoin names)) = dot :: names.map utf8 ++ empty := by
    match names, h with
    | [], _ => exact ⟨[[]], List.forall_mem_singleton.2 rfl, by decide⟩
    | n :: ns, h =>
      have hjoin : '.' :: '/' :: slashJoin (n :: ns) = slashJoin (['.'] :: n :: ns) := by
        rw [slashJoin_cons (List.cons_ne_nil n ns)]
        rfl
      refine ⟨[], fun c hc => absurd hc List.not_mem_nil, ?_⟩
      rw [hjoin, pieces_utf8 (List.forall_mem_cons.2 ⟨by decide, fun t ht => (h t ht).noSlash⟩)
        (List.cons_ne_nil _ _), List.append_nil]
      rfl
  induction slashes with
  | zero =>
    rw [requestPath, dirRequest, List.replicate_zero, List.append_nil]
    exact hnames
  | succ k ih =>
    obtain ⟨empty, hempty, hpieces⟩ := ih
    have hpath : requestPath (dirRequest names (k + 1)) =
        requestPath (dirRequest names k) ++ 47 :: [] := by
      unfold requestPath dirRequest
      rw [List.replicate_succ', ← List.append_assoc, ← List.cons_append, utf8_append]
      rfl
    refine ⟨empty ++ [[]], fun c hc => ?_, ?_⟩
    · rcases List.mem_append.1 hc with hold | hnew
      · exact hempty c hold
      · exact List.mem_singleton.1 hnew
    · rw [hpath, pieces_append_slash _ List.not_mem_nil, hpieces, List.append_assoc]

theorem trimEnd_append {ps qs : List Name} (hne : ps ≠ []) (h : ∀ c ∈ qs, isSkip c = true) :
    trimEnd (ps ++ qs) = trimEnd ps := by
  induction qs generalizing ps with
  | nil => rw [List.append_nil]
  | cons c qs ih =>
    obtain ⟨hc, hqs⟩ := List.forall_mem_cons.1 h
    rw [← List.singleton_append, ← List.append_assoc,
      ih (List.append_ne_nil_of_left_ne_nil hne _) hqs, trimEnd_append_skip hne hc]

theorem trimEnd_names {ps : List Name} {d : Name} (h : ∀ c ∈ ps, isSkip c = false) :
    trimEnd (d :: ps) = d :: ps := by
  rcases List.eq_nil_or_concat ps with rfl | ⟨init, c, rfl⟩
  · rfl
  · rw [List.concat_eq_append, ← List.cons_append]
    exact trimEnd_append_name (List.cons_ne_nil d init) (h c (by simp))

/-- The path that is read. -/
theorem pieces_pop_dirRequest (h : ∀ n ∈ names, PlainName n) :
    pieces (pop (push (requestPath (dirRequest names slashes)) indexHtml)) =
      dot :: names.map utf8 := by
  obtain ⟨empty, hempty, hpieces⟩ := pieces_dirRequest h slashes
  rw [pieces_pop (requestPath_ne_nil _), hpieces, trimEnd_append (List.cons_ne_nil _ _)
    fun c hc => by rw [hempty c hc]; rfl]
  exact trimEnd_names (isSkip_names h)

/-- **The path of an entry** is that of the names. -/
theorem pieces_entryPath (h : ∀ n ∈ names, PlainName n) (hname : EntryName name) :
    pieces (entryPath (dirRequest names slashes) name) = dot :: names.map utf8 ++ [name] := by
  have hpop : pieces (pop (push (requestPath (dirRequest names slashes)) indexHtml)) = _ :=
    pieces_pop_dirRequest h
  have hne : pop (push (requestPath (dirRequest names slashes)) indexHtml) ≠ [] := fun heq => by
    rw [heq] at hpop
    exact absurd (List.cons.inj hpop).1 (by decide)
  rcases pieces_push hne hname.noSlash with hpush | ⟨q, hq, -⟩
  · exact hpush.trans (congrArg (· ++ [name]) hpop)
  · -- no piece in front is empty
    rw [hpop] at hq
    have hmem : ([] : Name) ∈ dot :: names.map utf8 := by
      rw [hq]
      exact List.mem_append_right _ (List.mem_singleton_self _)
    rcases List.mem_cons.1 hmem with heq | hmem
    · exact absurd heq (by decide)
    · exact absurd (isSkip_names h _ hmem) (by decide)

theorem entryPath_eq (h : ∀ n ∈ names, PlainName n) (hname : EntryName name) :
    entryPath (dirRequest names slashes) name = ofPieces (dot :: names.map utf8 ++ [name]) := by
  rw [← pieces_entryPath h hname, ofPieces_pieces]

end Paths

/-! ### The link leads back -/

section Links

variable {lossy : Bytes → Text} {root : Node} {cwd : List Name} {names : List Text} {slashes : ℕ}
  {name : Name} {e : Text}

/-- The request for a directory leads there. -/
theorem locate_dir {t : Node} (h : ∀ n ∈ names, PlainName n)
    (hdir : resolve root cwd (requestPath (dirRequest names slashes)) = some t) :
    walk root cwd (dot :: names.map utf8) = some (cwd ++ names.map utf8) ∧
      root.lookup (cwd ++ names.map utf8) = some t ∧
      Openable (requestPath (dirRequest names slashes)) := by
  obtain ⟨empty, hempty, hpieces⟩ := pieces_dirRequest h slashes
  have hopen := openable_of_resolve hdir
  unfold resolve at hdir
  rw [if_neg (not_or.2 ⟨hopen.noNull, Nat.not_le_of_lt hopen.short⟩), hpieces, walk_append] at hdir
  rw [Option.bind_assoc] at hdir
  obtain ⟨loc, hloc, hlast⟩ := Option.bind_eq_some_iff.1 hdir
  obtain ⟨loc', hloc', hlookup⟩ := Option.bind_eq_some_iff.1 hlast
  obtain rfl : loc = cwd ++ names.map utf8 := by
    rw [walk_eq hloc (dotDot_not_mem h), filter_names h]
  have hsame : loc' = cwd ++ names.map utf8 := by
    have hup : dotDot ∉ empty := fun hmem => absurd (hempty _ hmem) (by decide)
    have hnone : empty.filter (fun c => !isSkip c) = [] := List.filter_eq_nil_iff.2 fun c hc => by
      rw [hempty c hc]
      exact Bool.false_ne_true
    rw [walk_eq hloc' hup, hnone, List.append_nil]
  exact ⟨hloc, hsame ▸ hlookup, hopen⟩

/-- The entry is where its path leads. -/
theorem Listed.locate_entry (h : Listed root cwd names slashes name) :
    locate root cwd (entryPath (dirRequest names slashes) name) =
      some (cwd ++ names.map utf8 ++ [name]) := by
  obtain ⟨entries, node, hresolve, -⟩ := h.dir
  obtain ⟨hwalk, hlookup, hopen⟩ := locate_dir h.plain hresolve
  have hdir : (root.lookup (cwd ++ names.map utf8)).any Node.isDir = true := by
    rw [hlookup]
    rfl
  have hpre : pop (push (requestPath (dirRequest names slashes)) indexHtml) <+:
      requestPath (dirRequest names slashes) := pop_isPrefix (requestPath_ne_nil _)
  have hnull := fun hmem => hopen.noNull (hpre.subset hmem)
  have hlength := hpre.length_le
  have hfits := h.fits
  have hpath : (requestPath (dirRequest names slashes)).length =
      (utf8 (dirRequest names slashes).path).length + 1 := rfl
  have hname := h.entry.short
  have hbuf : requestBufSize = 1024 := rfl
  have hmax : componentMax = 255 := rfl
  have hpathMax : pathMax = 4096 := rfl
  obtain ⟨hpushNull, hpushLength⟩ := push_bounds hnull h.entry.noNull
  have hopenable : ¬(0 ∈ entryPath (dirRequest names slashes) name ∨
      pathMax ≤ (entryPath (dirRequest names slashes) name).length) := by
    refine not_or.2 ⟨hpushNull, ?_⟩
    unfold entryPath
    omega
  have hstep : stepTo (cwd ++ names.map utf8) name = cwd ++ names.map utf8 ++ [name] := by
    rcases piece_cases name with ⟨-, -, hno⟩ | ⟨-, -, hno⟩ | ⟨hskip, hup, -⟩
    · exact absurd (hno.symm.trans h.entry.isName) Bool.false_ne_true
    · exact absurd (hno.symm.trans h.entry.isName) Bool.false_ne_true
    · rw [stepTo, hskip, if_neg Bool.false_ne_true, if_neg hup]
  rw [locate, if_neg hopenable, pieces_entryPath h.plain h.entry, walk_append, hwalk,
    Option.bind_some, walk_singleton hdir h.entry.short, hstep]

/-- What is requested for a link, if the entry's name is a text. -/
theorem requestPath_link (hlossy : ∀ s, lossy (utf8 s) = s)
    (h : Listed root cwd names slashes (utf8 e)) :
    requestPath (linkRequest lossy (dirRequest names slashes) (utf8 e)) =
      utf8 (slashJoin (['.'] :: merge names e)) := by
  have he : '/' ∉ e := fun hmem => h.entry.noSlash (mem_utf8_slash hmem)
  have hpath : entryPath (dirRequest names slashes) (utf8 e) =
      utf8 (slashJoin (['.'] :: names ++ [e])) := by
    rw [entryPath_eq h.plain h.entry, utf8_slashJoin, List.map_append]
    rfl
  have hns : ∀ n ∈ ['.'] :: names, '/' ∉ n ∧ n ≠ [] := List.forall_mem_cons.2
    ⟨by decide, fun n hn => ⟨(h.plain n hn).noSlash, (h.plain n hn).ne_nil⟩⟩
  have hmerge : merge (['.'] :: names) e = merge names e := by
    rw [merge, List.getLast?_singleton, if_pos rfl]
    match merge names e with
    | [] => rfl
    | m :: ms => rfl
  rw [linkRequest, requestPath, formatHref, hpath, hlossy, replaceDotSlash_join hns he, hmerge,
    slashJoin_cons (merge_ne_nil names e)]
  rfl

/-- **A link of names without dots at their ends is the path of the entry.** -/
theorem leadsBack_of_names (hlossy : ∀ s, lossy (utf8 s) = s)
    (h : Listed root cwd names slashes (utf8 e)) (hnames : ∀ n ∈ names, n.getLast? ≠ some '.') :
    LeadsBack lossy root cwd names slashes (utf8 e) := by
  have hlocate := h.locate_entry
  rw [entryPath_eq h.plain h.entry] at hlocate
  unfold LeadsBack
  rw [requestPath_link hlossy h, merge_eq hnames, utf8_slashJoin, List.map_cons, List.map_append]
  exact hlocate

/-- **A link in which names were joined leads elsewhere**, since it has fewer of them. -/
theorem names_of_leadsBack (hlossy : ∀ s, lossy (utf8 s) = s)
    (h : Listed root cwd names slashes (utf8 e))
    (hback : LeadsBack lossy root cwd names slashes (utf8 e)) :
    ∀ n ∈ names, n.getLast? ≠ some '.' := by
  have he : '/' ∉ e := fun hmem => h.entry.noSlash (mem_utf8_slash hmem)
  have hslash : ∀ t ∈ ['.'] :: merge names e, '/' ∉ t := List.forall_mem_cons.2
    ⟨by decide, noSlash_merge (fun n hn => (h.plain n hn).noSlash) he⟩
  unfold LeadsBack locate at hback
  split at hback
  · cases hback
  rw [requestPath_link hlossy h, pieces_utf8 hslash (List.cons_ne_nil _ _), List.map_cons] at hback
  have hlength := length_walk (walk_cons hback)
  have hcount := List.countP_le_length (p := fun c => !isSkip c) (l := (merge names e).map utf8)
  have hnames := List.countP_le_length (p := fun n : Text => n.getLast? ≠ some '.') (l := names)
  have hdot : stepTo cwd (utf8 ['.']) = cwd := rfl
  rw [hdot] at hlength
  rw [List.length_map, length_merge] at hcount
  rw [List.length_append, List.length_append, List.length_map, List.length_singleton] at hlength
  have hall := List.countP_eq_length.1 (Nat.le_antisymm hnames (by omega))
  exact fun n hn => of_decide_eq_true (hall n hn)

/-- **A name that is no text is in no link.** -/
theorem text_of_leadsBack (hback : LeadsBack lossy root cwd names slashes name) :
    ∃ e, utf8 e = name := by
  unfold LeadsBack locate at hback
  split at hback
  · cases hback
  have hget : (cwd ++ names.map utf8 ++ [name])[(cwd ++ names.map utf8).length]? = some name :=
    List.getElem?_concat_length
  rcases getElem?_walk hback hget with hold | hnew
  · have hnone : cwd[(cwd ++ names.map utf8).length]? = none :=
      List.getElem?_eq_none (by rw [List.length_append]; omega)
    rw [hnone] at hold
    cases hold
  · exact exists_of_mem_pieces hnew

/-- **The links of a directory's page** lead back to their entries exactly if no name on the way to
the directory ends in a dot, and the entry's name is a text. -/
theorem leadsBack_iff (hlossy : ∀ s, lossy (utf8 s) = s) (h : Listed root cwd names slashes name) :
    LeadsBack lossy root cwd names slashes name ↔
      (∀ n ∈ names, n.getLast? ≠ some '.') ∧ (fromUtf8 name).isSome := by
  constructor
  · intro hback
    obtain ⟨e, rfl⟩ := text_of_leadsBack hback
    exact ⟨names_of_leadsBack hlossy h hback, by rw [fromUtf8_utf8]; rfl⟩
  · rintro ⟨hnames, htext⟩
    obtain ⟨e, he⟩ := Option.isSome_iff_exists.1 htext
    obtain rfl := fromUtf8_eq_some_iff.1 he
    exact leadsBack_of_names hlossy h hnames

theorem exists_append_flatMap {α β : Type} {f : α → List β} {x : α} {l : List α} (h : x ∈ l)
    (front back : List β) : ∃ before after, front ++ l.flatMap f ++ back = before ++ f x ++ after := by
  obtain ⟨l₁, l₂, rfl⟩ := List.append_of_mem h
  refine ⟨front ++ l₁.flatMap f, l₂.flatMap f ++ back, ?_⟩
  rw [List.flatMap_append, List.flatMap_cons]
  simp only [List.append_assoc]

theorem exists_directoryPage (lossy : Bytes → Text) {p : UnixPath}
    {entries : List (Name × Node)} {node : Node} (h : (name, node) ∈ entries) : ∃ before after, directoryPage lossy p entries =
      before ++ listItem (formatHref lossy (push p name)) (lossy name) ++ after := by
  unfold directoryPage
  exact exists_append_flatMap (f := fun e : Name × Node =>
    listItem (formatHref lossy (push p e.1)) (lossy e.1)) h _ _

/-- The page that is sent has the link. -/
theorem Listed.sent (h : Listed root cwd names slashes name) (lossy : Bytes → Text) :
    ∃ before after, (handleSocket lossy root cwd (dirRequest names slashes)).sent =
      before ++ utf8 (listItem (linkRequest lossy (dirRequest names slashes) name).path (lossy name)) ++
        after := by
  obtain ⟨entries, node, hdir, hentry⟩ := h.dir
  obtain ⟨hwalk, hlookup, hopen⟩ := locate_dir h.plain hdir
  have hpop : resolve root cwd (pop (push (requestPath (dirRequest names slashes)) indexHtml)) =
      some (.dir true entries) := by
    have hpopen := openable_pop (requestPath_ne_nil _) hopen
    unfold resolve
    rw [if_neg (not_or.2 ⟨hpopen.noNull, Nat.not_le_of_lt hpopen.short⟩),
      pieces_pop_dirRequest h.plain, hwalk]
    exact hlookup
  have hsent : ∃ head, (handleSocket lossy root cwd (dirRequest names slashes)).sent = head ++
      utf8 (directoryPage lossy (pop (push (requestPath (dirRequest names slashes)) indexHtml))
        entries) := by
    unfold handleSocket
    rw [if_pos (by rfl)]
    dsimp only
    rw [hdir]
    dsimp only
    rw [if_neg (by exact Bool.false_ne_true), if_pos (by rfl)]
    unfold handleDirectoryRequest
    dsimp only
    rw [if_neg (by rw [h.noIndex]; exact Bool.false_ne_true), hpop]
    exact ⟨_, rfl⟩
  obtain ⟨head, hsent⟩ := hsent
  obtain ⟨before, after, hpage⟩ := exists_directoryPage lossy hentry
  refine ⟨head ++ utf8 before, utf8 after, ?_⟩
  rw [hsent, hpage, utf8_append, utf8_append, List.append_assoc, List.append_assoc,
    List.append_assoc]
  rfl

/-- A link that leads back to a file opens it. -/
theorem opened_link {content : Bytes} (hback : LeadsBack lossy root cwd names slashes name)
    (hfile : root.lookup (cwd ++ names.map utf8 ++ [name]) = some (.file true content)) :
    (handleSocket lossy root cwd (linkRequest lossy (dirRequest names slashes) name)).opened =
      [requestPath (linkRequest lossy (dirRequest names slashes) name)] := by
  have hresolve : resolve root cwd (requestPath (linkRequest lossy (dirRequest names slashes) name)) =
      some (.file true content) := by
    rw [resolve_eq, show locate root cwd _ = _ from hback]
    exact hfile
  unfold handleSocket
  rw [if_pos (by rfl)]
  dsimp only
  rw [hresolve]
  dsimp only
  rw [if_pos (by rfl)]
  unfold handleFileRequest
  rw [hresolve]

end Links

/-! ### A directory with a dot at its end -/

/-- Text as it is, and nothing else. -/
def textOr (b : Bytes) : Text := (fromUtf8 b).getD []

theorem textOr_utf8 (s : Text) : textOr (utf8 s) = s := by rw [textOr, fromUtf8_utf8]; rfl

/-- `a./b`, and `c/b`. -/
def dottedTree : Node :=
  .dir true [(ofString "a.", .dir true [(ofString "b", .file true [])]),
    (ofString "c", .dir true [(ofString "b", .file true [])])]

theorem listed_dotted : Listed dottedTree [] [['a', '.']] 0 (ofString "b") where
  plain := List.forall_mem_singleton.2 ⟨by decide, by decide, by decide, by decide⟩
  fits := by decide
  dir := ⟨[(ofString "b", .file true [])], _, rfl, List.mem_singleton_self _⟩
  noIndex := rfl
  entry := ⟨by decide, by decide, by decide, by decide⟩

theorem listed_plain : Listed dottedTree [] [['c']] 1 (ofString "b") where
  plain := List.forall_mem_singleton.2 ⟨by decide, by decide, by decide, by decide⟩
  fits := by decide
  dir := ⟨[(ofString "b", .file true [])], _, rfl, List.mem_singleton_self _⟩
  noIndex := rfl
  entry := ⟨by decide, by decide, by decide, by decide⟩

/-- **A link that leads elsewhere**: the one to `a./b` is to `/ab`. -/
theorem not_leadsBack : ¬∀ (lossy : Bytes → Text), (∀ s, lossy (utf8 s) = s) →
    ∀ root cwd names slashes name, Listed root cwd names slashes name →
      LeadsBack lossy root cwd names slashes name := by
  intro h
  have hback := h textOr textOr_utf8 _ _ _ _ _ listed_dotted
  have hnames := names_of_leadsBack (e := ['b']) textOr_utf8 listed_dotted hback
  exact hnames ['a', '.'] (List.mem_singleton_self _) rfl

/-- The link of `b` in the listing of `c` leads to `c/b`. -/
theorem leadsBack_iff_plain : LeadsBack textOr dottedTree [] [['c']] 1 (ofString "b") ↔
    (∀ n ∈ [['c']], n.getLast? ≠ some '.') ∧ (fromUtf8 (ofString "b")).isSome :=
  leadsBack_iff textOr_utf8 listed_plain

end Http
end CS162

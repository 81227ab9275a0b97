/-
# Serving files

`hw-http-rs/src/server.rs`, lines 61-167, and the rest of `hw-http-rs/src/http.rs`:
`handle_socket` on a parsed request, `handle_file_request` and `handle_directory_request`.

The path of a request is only prefixed with a dot.  So what is opened for it, and what the
response depends on, is in the served directory exactly if no part of the path has more `..` than
names (`confined_iff`), or nothing is opened at all.
-/

import CS162.Basis.FileTree
import CS162.Http.Request

namespace CS162
namespace Http

open CS162.Basis

/-- The bytes of a literal. -/
def ofString (s : String) : Bytes := utf8 s.toList

/-! ### Responses -/

/-- `response_message`. -/
def responseMessage : ℕ → String
  | 100 => "Continue"
  | 200 => "OK"
  | 301 => "Moved Permanently"
  | 302 => "Found"
  | 304 => "Not Modified"
  | 400 => "Bad Request"
  | 401 => "Unauthorized"
  | 403 => "Forbidden"
  | 404 => "Not Found"
  | 405 => "Method Not Allowed"
  | _ => "Internal Server Error"

/-- `start_response`. -/
def startResponse (statusCode : ℕ) : Bytes :=
  utf8 ("HTTP/1.0 ".toList ++ decimal statusCode ++ ' ' :: (responseMessage statusCode).toList ++
    "\r\n".toList)

/-- `write_header`. -/
def writeHeader (key value : Text) : Bytes := utf8 (key ++ ": ".toList ++ value ++ "\r\n".toList)

/-- `end_headers`. -/
def endHeaders : Bytes := ofString "\r\n"

/-- `Path::extension`: what is after the last dot, unless the name has no other or only begins with
it. -/
def extension (p : UnixPath) : Option Name :=
  (fileName p).bind fun c =>
    match (c.splitOn 46).reverse with
    | after :: b :: bs => if b = [] ∧ bs = [] then none else some after
    | _ => none

/-- `file_extension`. -/
def fileExtension (p : UnixPath) : Option String :=
  (extension p).bind fun e => (fromUtf8 e).map String.ofList

/-- `get_mime_type`. -/
def getMimeType (p : UnixPath) : String :=
  match fileExtension p with
  | some "html" | some "htm" => "text/html"
  | some "jpg" | some "jpeg" => "image/jpeg"
  | some "png" => "image/png"
  | some "css" => "text/css"
  | some "js" => "application/javascript"
  | some "pdf" => "application/pdf"
  | _ => "text/plain"

/-- `replace("./", "")`. -/
def replaceDotSlash : Text → Text
  | '.' :: '/' :: s => replaceDotSlash s
  | c :: s => c :: replaceDotSlash s
  | [] => []

/-- `format_href`, of the server, with `to_string_lossy`. -/
def formatHref (lossy : Bytes → Text) (p : UnixPath) : Text := '/' :: replaceDotSlash (lossy p)

/-- A line of a directory's page. -/
def listItem (href name : Text) : Text :=
  "<li><a href=\"".toList ++ href ++ "\">".toList ++ name ++ "</a></li>\n".toList

/-- The page of a directory. -/
def directoryPage (lossy : Bytes → Text) (p : UnixPath) (entries : List (Name × Node)) : Text :=
  "<html><body><ul>\n".toList ++
    (parent p).elim [] (fun p => listItem (formatHref lossy p) "Parent Directory".toList) ++
    (entries.flatMap fun e => listItem (formatHref lossy (push p e.1)) (lossy e.1)) ++
    "</ul></body></html>\n".toList

/-! ### Requests -/

/-- What a request leads to: the paths that `File::open` and `read_dir` opened, what is sent, and
whether it ended with an error. -/
structure Outcome where
  opened : List UnixPath
  sent : Bytes
  failed : Bool

def notFound : Outcome := ⟨[], startResponse 404 ++ endHeaders, false⟩

/-- `handle_file_request`, for a path to a file. -/
def handleFileRequest (root : Node) (cwd : List Name) (pathBuf : UnixPath) : Outcome :=
  match resolve root cwd pathBuf with
  | some (.file true content) =>
    -- `to_str().unwrap_or("")`
    let mimeType := getMimeType (if (fromUtf8 pathBuf).isSome then pathBuf else [])
    ⟨[pathBuf], startResponse 200 ++ writeHeader "Content-Type".toList mimeType.toList ++
      writeHeader "Content-Length".toList (decimal content.length) ++ endHeaders ++ content, false⟩
  -- the file cannot be opened
  | _ => ⟨[], [], true⟩

def indexHtml : Name := ofString "index.html"

/-- `handle_directory_request`. -/
def handleDirectoryRequest (lossy : Bytes → Text) (root : Node) (cwd : List Name)
    (pathBuf : UnixPath) : Outcome :=
  let index := push pathBuf indexHtml
  if (resolve root cwd index).any Node.isFile = true then handleFileRequest root cwd index
  else
    let pathBuf := pop index
    let head := startResponse 200 ++ writeHeader "Content-Type".toList "text/html".toList ++ endHeaders
    match resolve root cwd pathBuf with
    | some (.dir true entries) =>
      ⟨[pathBuf], head ++ utf8 (directoryPage lossy pathBuf entries), false⟩
    -- `read_dir` fails after the headers have been sent
    | _ => ⟨[], head, true⟩

/-- The path that is looked up for a request. -/
def requestPath (request : Request) : UnixPath := utf8 ('.' :: request.path)

/-- `handle_socket`, after `parse_request`, with the files `root` and the working directory `cwd`. -/
def handleSocket (lossy : Bytes → Text) (root : Node) (cwd : List Name) (request : Request) : Outcome :=
  if request.method = "GET".toList then
    let pathBuf := requestPath request
    match resolve root cwd pathBuf with
    | some found =>
      if found.isFile = true then handleFileRequest root cwd pathBuf
      else if found.isDir = true then handleDirectoryRequest lossy root cwd pathBuf
      else ⟨[], [], false⟩
    | none => notFound
  else notFound

/-! ### Confinement -/

/-- **The request is served from the served directory**: whatever the files are, no path that is
opened leads out of the working directory, and nothing outside of it makes a difference. -/
structure Confined (lossy : Bytes → Text) (request : Request) : Prop where
  opens : ∀ root cwd, ∀ p ∈ (handleSocket lossy root cwd request).opened, Inside cwd p
  depends : ∀ root root' cwd, root.lookup cwd = root'.lookup cwd →
    handleSocket lossy root cwd request = handleSocket lossy root' cwd request

section Confined

variable {lossy : Bytes → Text} {root root' : Node} {cwd : List Name} {p q : UnixPath}
  {request : Request}

theorem requestPath_ne_nil (request : Request) : requestPath request ≠ [] := List.cons_ne_nil _ _

theorem balanced_push (hne : p ≠ []) (h : Balanced p) : Balanced (push p indexHtml) := by
  unfold Basis.Balanced at h ⊢
  have hname : ∀ c ∈ [indexHtml], c ≠ dotDot := by decide
  rcases pieces_push hne (by decide : (47 : UInt8) ∉ indexHtml) with hpieces | ⟨q, hq, hpieces⟩
  · rw [hpieces]
    exact h.append hname
  · rw [hpieces]
    rw [hq] at h
    exact (h.of_isPrefix (List.prefix_append _ _)).append hname

/-- The path that is read after the index has not been found. -/
theorem pieces_pop (hne : p ≠ []) : pieces (pop (push p indexHtml)) = trimEnd (pieces p) := by
  rw [pop_push hne (by decide) (by decide)]
  exact pieces_ofPieces (trimEnd_ne_nil (pieces_ne_nil p)) fun c hc =>
    not_mem_of_mem_pieces ((trimEnd_isPrefix _).subset hc)

theorem balanced_pop_iff (hne : p ≠ []) : Balanced (pop (push p indexHtml)) ↔ Balanced p := by
  unfold Basis.Balanced
  rw [pieces_pop hne]
  constructor
  · intro h
    obtain ⟨qs, hqs, hskip⟩ := exists_trimEnd (pieces p)
    rw [hqs]
    refine h.append fun c hc => ?_
    rintro rfl
    cases hskip _ hc
  · exact fun h => h.of_isPrefix (trimEnd_isPrefix _)

theorem openable_pop (hne : p ≠ []) (h : Openable p) : Openable (pop (push p indexHtml)) := by
  have hpre : pop (push p indexHtml) <+: p := by
    rw [pop_push hne (by decide) (by decide)]
    have hof := ofPieces_isPrefix (trimEnd_isPrefix (pieces p))
    rwa [ofPieces_pieces] at hof
  refine ⟨fun h0 => h.noNull (hpre.subset h0), Nat.lt_of_le_of_lt hpre.length_le h.short, ?_⟩
  intro c hc
  rw [pieces_pop hne] at hc
  exact h.names c ((trimEnd_isPrefix _).subset hc)

/-- A file is opened under its path. -/
theorem opened_file (h : q ∈ (handleFileRequest root cwd p).opened) : q = p := by
  unfold handleFileRequest at h
  split at h
  · exact List.mem_singleton.1 h
  · exact absurd h List.not_mem_nil

theorem handleFileRequest_congr (h : root.lookup cwd = root'.lookup cwd) (hinside : Inside cwd p) :
    handleFileRequest root cwd p = handleFileRequest root' cwd p := by
  unfold handleFileRequest
  rw [resolve_congr h hinside]

/-- A directory is opened under its path, or its index is. -/
theorem opened_directory (h : q ∈ (handleDirectoryRequest lossy root cwd p).opened) :
    q = push p indexHtml ∨ q = pop (push p indexHtml) := by
  unfold handleDirectoryRequest at h
  dsimp only at h
  split at h
  · exact .inl (opened_file h)
  · split at h
    · exact .inr (List.mem_singleton.1 h)
    · exact absurd h List.not_mem_nil

/-- **A request without too many `..`** is served from the served directory. -/
theorem confined_of_balanced (h : Balanced (requestPath request)) : Confined lossy request := by
  have hne := requestPath_ne_nil request
  have hpush := balanced_push hne h
  have hpop := (balanced_pop_iff hne).2 h
  constructor
  · intro root cwd q hq
    unfold handleSocket at hq
    split at hq
    · dsimp only at hq
      split at hq
      · split at hq
        · rw [opened_file hq]
          exact inside_of_balanced h cwd
        · split at hq
          · rcases opened_directory hq with rfl | rfl
            · exact inside_of_balanced hpush cwd
            · exact inside_of_balanced hpop cwd
          · exact absurd hq List.not_mem_nil
      · exact absurd hq List.not_mem_nil
    · exact absurd hq List.not_mem_nil
  · intro root root' cwd hsame
    have hindex := inside_of_balanced hpush cwd
    have hdirectory : handleDirectoryRequest lossy root cwd (requestPath request) =
        handleDirectoryRequest lossy root' cwd (requestPath request) := by
      unfold handleDirectoryRequest
      dsimp only
      rw [resolve_congr hsame hindex, handleFileRequest_congr hsame hindex,
        resolve_congr hsame (inside_of_balanced hpop cwd)]
    have hinside := inside_of_balanced h cwd
    unfold handleSocket
    dsimp only
    rw [resolve_congr hsame hinside, handleFileRequest_congr hsame hinside, hdirectory]

/-- Nothing is looked up for such a request. -/
theorem confined_of_not_found (h : ∀ root cwd, handleSocket lossy root cwd request = notFound) :
    Confined lossy request := by
  constructor
  · intro root cwd q hq
    rw [h] at hq
    exact absurd hq List.not_mem_nil
  · intro root root' cwd _
    rw [h, h]

/-- **The server serves its own tree** for a request if and only if the request's method is not
`GET`, or its path (with the dot before it) is none that the system looks up, or no part of the
path from its start has more `..` than names. -/
theorem confined_iff (lossy : Bytes → Text) (request : Request) : Confined lossy request ↔
    (request.method = "GET".toList → Openable (requestPath request) → Balanced (requestPath request)) := by
  have hne := requestPath_ne_nil request
  constructor
  · intro h hget hopen
    -- all pieces of the path are directories, and so is the working directory
    set names : List Name := [120] :: pieces (requestPath request) with hnames
    set root := allDirs names (1 + (pieces (requestPath request)).length) with hroot
    have hcwd : ∀ c ∈ [([120] : Name)], c ∈ names := List.forall_mem_singleton.2 List.mem_cons_self
    have hsub : ∀ c ∈ pieces (requestPath request), c ∈ names := fun c hc => List.mem_cons_of_mem _ hc
    have hdir : ∃ entries, resolve root [[120]] (requestPath request) = some (.dir true entries) :=
      resolve_allDirs hopen hcwd hsub (Nat.le_refl _)
    have hpre := trimEnd_isPrefix (pieces (requestPath request))
    have hlen := hpre.length_le
    have hpieces := pieces_pop hne
    have hpop : ∃ entries, resolve root [[120]] (pop (push (requestPath request) indexHtml)) =
        some (.dir true entries) := by
      refine resolve_allDirs (openable_pop hne hopen) hcwd ?_ ?_
      · exact fun c hc => hsub c (hpre.subset (hpieces ▸ hc))
      · rw [hpieces]
        exact Nat.add_le_add_left hlen 1
    obtain ⟨entries, hdir⟩ := hdir
    obtain ⟨entries', hpop⟩ := hpop
    have hindex : ¬(resolve root [[120]] (push (requestPath request) indexHtml)).any Node.isFile = true := by
      intro hfile
      obtain ⟨t, ht, hfile⟩ := (Option.any_eq_true _ _).1 hfile
      obtain ⟨loc, hloc⟩ := exists_of_resolve ht
      rw [not_file_allDirs hloc] at hfile
      cases hfile
    have hopened : (handleSocket lossy root [[120]] request).opened =
        [pop (push (requestPath request) indexHtml)] := by
      unfold handleSocket
      rw [if_pos hget]
      dsimp only
      rw [hdir]
      dsimp only
      rw [if_neg (by exact Bool.false_ne_true), if_pos (by rfl)]
      unfold handleDirectoryRequest
      dsimp only
      rw [if_neg hindex, hpop]
    have hinside := h.opens root [[120]] _ (hopened ▸ List.mem_singleton_self _)
    exact (balanced_pop_iff hne).1 ((inside_iff (List.cons_ne_nil _ _)).1 hinside)
  · intro h
    by_cases hget : request.method = "GET".toList
    · by_cases hopen : Openable (requestPath request)
      · exact confined_of_balanced (h hget hopen)
      · refine confined_of_not_found fun root cwd => ?_
        unfold handleSocket
        rw [if_pos hget]
        dsimp only
        match hresolve : resolve root cwd (requestPath request) with
        | none => rfl
        | some t => exact absurd (openable_of_resolve hresolve) hopen
    · refine confined_of_not_found fun root cwd => ?_
      unfold handleSocket
      rw [if_neg hget]

end Confined

/-- `GET /../secret`. -/
def getSecret : Request := ⟨"GET".toList, "/../secret".toList⟩

/-- A file next to the served directory. -/
def secretTree : Node :=
  .dir true [(ofString "secret", .file true [42]), (ofString "www", .dir true [])]

/-- **A path with `..`** is opened outside of the served directory. -/
theorem confined_fails : ¬∀ (lossy : Bytes → Text) (request : Request), Confined lossy request := by
  intro h
  have hopened : requestPath getSecret ∈
      (handleSocket (fun _ => []) secretTree [ofString "www"] getSecret).opened := by
    decide +kernel
  have hinside := (h (fun _ => []) getSecret).opens secretTree [ofString "www"] _ hopened
  exact absurd hinside (by decide +kernel)

end Http
end CS162

/-
  XwpServer.StaticFile

  `module_default_handle_request` (`module_default.c`): the file of a request.

  The path of the file is the location's root and the URL's path, or the default page for
  `/`, one right behind the other.  So a URL climbs out of the root with `..`, and the
  default page of a root without a slash at its end is a neighbour of the root.
-/

import XwpServer.LineStrings
import XwpServer.HeaderTable
import XwpServer.RecvLoop
import XwpServer.Accepted
import XwpServer.Lib.LexicalPath

namespace XwpServer

open CString LexicalPath

abbrev DOT : Byte := 46

/-! ## `http_content_type` -/

/-- The types of the extensions; the last branch of the source has the type of no
    extension. -/
def contentTypes : List (String × String) := [
  ("", "application/octet-stream"), ("exe", "application/octet-stream"), ("js", "text/html"),
  ("gif", "image/gif"), ("bmp", "image/x-xbitmap"), ("jpg", "image/jpeg"), ("png", "image/png"),
  ("ico", "image/x-icon"), ("htm", "text/html"), ("asp", "text/html"), ("php", "text/html"),
  ("html", "text/html"), ("mht", "text/html"), ("xml", "text/xml"), ("txt", "text/plain"),
  ("c", "text/plain"), ("cpp", "text/plain"), ("hpp", "text/plain"), ("h", "text/plain"),
  ("lrc", "text/plain"), ("pdf", "application/pdf"), ("avi", "video/avi"), ("css", "text/css"),
  ("swf", "application/x-shockwave-flash"), ("flv", "application/x-shockwave-flash"),
  ("xls", "application/vnd.ms-excel"), ("doc", "application/vnd.ms-word"), ("mid", "audio/midi"),
  ("mp3", "audio/mpeg"), ("ogg", "audio/ogg"), ("rm", "application/vnd.rn-realmedia"),
  ("rmvb", "application/vnd.rn-realmedia"), ("wav", "audio/wav"), ("wmv", "video/x-ms-wmv"),
  ("zip", "application/x-tar"), ("rar", "application/x-tar"), ("7z", "application/x-tar"),
  ("tar", "application/x-tar"), ("gz", "application/x-tar")]

/-- `http_content_type`. -/
def httpContentType (extension : Option (List Byte)) : Str :=
  match extension with
  | none => .serverString "text/html"
  | some e =>
    match contentTypes.find? fun p => bytes p.1 = e with
    | some p => .serverString p.2
    | none => .serverString "text/html"

/-- `strrchr(s, '.')`, and one character further. -/
def extensionOf (s : List Byte) : Option (List Byte) :=
  if DOT ∈ s then some (s.reverse.takeWhile (· != DOT)).reverse else none

/-! ## The module -/

/-- `loc_conf->root`. -/
structure LocRoot where
  text : List Byte
  ends : NUL ∉ text := by decide

/-- `root_conf->default_page`, as both functions that make a configuration set it. -/
abbrev DEFAULT_PAGE : Str := .serverString "index.html"

/-- What `stat` tells about a file; `st_size` is an `off_t`. -/
structure StatBuf where
  isDir : Bool
  isReg : Bool
  ownerReads : Bool
  size : Int
  deriving DecidableEq, Repr

/-- The files as `stat` and `open` show them; `none` is a failure. -/
structure FileSystem where
  stat : List Byte → Option StatBuf
  openFile : List Byte → Option Int

/-- A call with the path it is handed. -/
inductive FileCall where
  | stat (path : List Byte)
  | openFile (path : List Byte)
  deriving DecidableEq, Repr

def FileCall.path : FileCall → List Byte
  | .stat path => path
  | .openFile path => path

/-- The `sprintf` of the path, into a block of `root.len + request_path.len + 2` bytes. -/
def staticPath (root : LocRoot) (r : HttpRequest) : Except Stop (List Byte) :=
  let requestPath :=
    if r.url.path.len = 1 ∧ (r.str r.url.path.data).head? = some SLASH then DEFAULT_PAGE
    else r.url.path
  match r.toHeap.cstr requestPath.data with
  | none => .error .nullDeref
  | some s =>
    if root.text.length + requestPath.len + 2 < (root.text ++ s).length + 1 then .error .fault
    else .ok (root.text ++ s)

/-- `module_default_handle_request`, with the calls it makes. -/
def moduleDefaultHandleRequest (root : LocRoot) (fs : FileSystem) (r : HttpRequest) :
    Except Stop (HttpRequest × List FileCall) :=
  if r.method ≠ .get then .ok ({ r with status := HTTP_STATUS_BAD_REQUEST }, [])
  else do
    let path ← staticPath root r
    match fs.stat path with
    | none => return ({ r with status := HTTP_STATUS_NOT_FOUND }, [.stat path])
    | some st =>
      if st.isDir || !(st.isReg && st.ownerReads) then
        return ({ r with status := HTTP_STATUS_FORBIDDEN }, [.stat path])
      else
        match fs.openFile path with
        | none => return ({ r with status := HTTP_STATUS_NOT_FOUND }, [.stat path, .openFile path])
        | some fd =>
          let contentType := httpContentType (extensionOf (r.str r.url.path.data))
          return ({ r with
              status := HTTP_STATUS_OK
              bodyOut := { r.bodyOut with contentFd := fd, contentLen := toInt32 st.size }
              headersOut := { r.headersOut with
                headers := httpHeaderSet r.toHeap r.headersOut.headers HTTP_HEADER_CONTENT_TYPE
                  contentType } },
            [.stat path, .openFile path])

/-! ## Paths of requests -/

/-- The path that `http_parse_url` records for a word of a request line. -/
def AcceptedPath (x : List Byte) : Prop :=
  ∃ w : List Byte, (∀ c ∈ w, c ≠ NUL ∧ isspace c = false) ∧
    (httpParseUrl 0 (w ++ [NUL]) {} ⟨0, w.length⟩).1 = .done ∧
    ∃ off, (httpParseUrl 0 (w ++ [NUL]) {} ⟨0, w.length⟩).2.2.path = ⟨.buf 0 off, x.length⟩ ∧
      strAt (httpParseUrl 0 (w ++ [NUL]) {} ⟨0, w.length⟩).2.1 off = some x

/-- The marks of a path at position `p` of the token `w`: it starts with a slash and has
    not ended at its start. -/
def UrlMarks.SlashAt (k : UrlMarks) (w : List Byte) (p : Nat) : Prop :=
  ∀ a ∈ k.pathStart, w[a]? = some SLASH ∧ a < p ∧ ∀ e ∈ k.pathEnd, a < e

theorem UrlMarks.SlashAt.next {k k' : UrlMarks} {w : List Byte} {p : Nat} (hk : k.SlashAt w p)
    (hs : k'.pathStart = k.pathStart) (he : k'.pathEnd = k.pathEnd ∨ k'.pathEnd = some p) :
    k'.SlashAt w (p + 1) := by
  intro a ha
  obtain ⟨hslash, hlt, hend⟩ := hk a (hs ▸ ha)
  refine ⟨hslash, Nat.lt_succ_of_lt hlt, fun e hmem => ?_⟩
  rcases he with he | he
  · exact hend e (he ▸ hmem)
  · rw [he, Option.mem_some_iff] at hmem
    exact hmem ▸ hlt

/-- A path starts at a slash. -/
theorem UrlMarks.slashAt_start {k : UrlMarks} {w : List Byte} {p : Nat}
    (hc : w[p]? = some SLASH) (hs : k.pathStart = some p) (he : k.pathEnd = none) :
    k.SlashAt w (p + 1) := by
  intro a ha
  rw [hs, Option.mem_some_iff] at ha
  subst ha
  exact ⟨hc, Nat.lt_succ_self _, by simp [he]⟩

theorem urlStep_slashAt {s s' : UrlState} {k k' : UrlMarks} {p : Nat} {c : Byte} {w : List Byte}
    (h : urlStep s k p c = some (s', k')) (hc : w[p]? = some c) (ho : k.Ordered s p)
    (hk : k.SlashAt w p) : k'.SlashAt w (p + 1) := by
  -- a path is marked at a slash only: from the start, behind the host or behind the port
  unfold urlStep at h
  cases s with
  | start =>
      obtain ⟨-, hpe, -⟩ := ho
      dsimp only at h
      split_ifs at h with hsp hch hsl <;> simp only [Option.some.injEq, Prod.mk.injEq] at h <;>
        obtain ⟨rfl, rfl⟩ := h
      · exact hk.next rfl (.inl rfl)
      · exact hk.next rfl (.inl rfl)
      · exact UrlMarks.slashAt_start (hsl ▸ hc) rfl hpe
  | schema =>
      dsimp only at h
      split_ifs at h <;> simp only [Option.some.injEq, Prod.mk.injEq] at h <;>
        obtain ⟨rfl, rfl⟩ := h <;> exact hk.next rfl (.inl rfl)
  | schemaSlash =>
      dsimp only at h
      split_ifs at h <;> simp only [Option.some.injEq, Prod.mk.injEq] at h <;>
        obtain ⟨rfl, rfl⟩ := h <;> exact hk.next rfl (.inl rfl)
  | host =>
      obtain ⟨-, hpe, -⟩ := ho
      dsimp only at h
      split_ifs at h with hch hdg hco hsl <;>
        simp only [Option.some.injEq, Prod.mk.injEq] at h <;> obtain ⟨rfl, rfl⟩ := h
      · exact hk.next rfl (.inl rfl)
      · exact hk.next rfl (.inl rfl)
      · exact hk.next rfl (.inl rfl)
      · exact UrlMarks.slashAt_start (hsl ▸ hc) rfl hpe
  | port =>
      obtain ⟨-, hpe, -⟩ := ho
      dsimp only at h
      split_ifs at h with hdg hsl hsp <;>
        simp only [Option.some.injEq, Prod.mk.injEq] at h <;> obtain ⟨rfl, rfl⟩ := h
      · exact hk.next rfl (.inl rfl)
      · exact UrlMarks.slashAt_start (hsl ▸ hc) rfl hpe
      · exact hk.next rfl (.inl rfl)
  | path =>
      dsimp only at h
      split_ifs at h <;> simp only [Option.some.injEq, Prod.mk.injEq] at h <;>
        obtain ⟨rfl, rfl⟩ := h
      · exact hk.next rfl (.inr rfl)
      · exact hk.next rfl (.inr rfl)
      · exact hk.next rfl (.inr rfl)
      · exact hk.next rfl (.inl rfl)
  | queryString =>
      dsimp only at h
      split_ifs at h <;> simp only [Option.some.injEq, Prod.mk.injEq] at h <;>
        obtain ⟨rfl, rfl⟩ := h <;> exact hk.next rfl (.inl rfl)
  | done => cases h

theorem urlScan_slashAt {w u : List Byte} {p : Nat} {s : UrlState} {k k' : UrlMarks}
    (h : urlScan u p s k = some k') (hu : w.drop p = u) (ho : k.Ordered s p)
    (hk : k.SlashAt w p) : ∃ q, k'.SlashAt w q := by
  -- on the bytes that are left; `p` is where the first of them stands
  induction u generalizing p s k with
  | nil =>
      simp only [urlScan, Option.some.injEq] at h
      exact ⟨p, h ▸ hk⟩
  | cons c cs ih =>
      have hc : w[p]? = some c := by
        have := congrArg (·[0]?) hu
        simpa using this
      have hcs : w.drop (p + 1) = cs := by
        rw [← List.drop_drop, hu]
        rfl
      simp only [urlScan] at h
      split_ifs at h with hnul
      · simp only [Option.some.injEq] at h
        exact ⟨p, h ▸ hk⟩
      · split at h
        · cases h
        · next k₁ hstep =>
          simp only [Option.some.injEq] at h
          exact ⟨p + 1, h ▸ urlStep_slashAt hstep hc ho hk⟩
        · next s₁ k₁ _ hstep =>
          exact ih h hcs (urlStep_ordered hstep ho) (urlStep_slashAt hstep hc ho hk)

/-- An accepted path starts with a slash. -/
theorem AcceptedPath.slash {x : List Byte} (hx : AcceptedPath x) : ∃ t, x = SLASH :: t := by
  obtain ⟨w, hw, hdone, off, hpath, hstr⟩ := hx
  have hu : ((w ++ [NUL]).drop 0).take w.length = w := by simp
  have hin := (httpParseUrl_inLine 0 (fun hz => (hw _ hz).1 rfl) NUL).path
  rw [hpath] at hin
  obtain ⟨-, hlen, htext⟩ := hin
  rw [hstr] at htext
  simp only [httpParseUrl, hu] at hdone hpath
  split at hdone
  · cases hdone
  next k hscan =>
  simp only [hscan] at hpath
  obtain ⟨-, -, hrec⟩ := urlRecord_done (Prod.ext hdone rfl) rfl
  rw [hrec, UrlMarks.path] at hpath
  obtain ⟨q, hslash⟩ := urlScan_slashAt hscan rfl (by simp [UrlMarks.Ordered])
    (fun a ha => by cases ha)
  have hle : k.Le w.length := by
    have h0 : ({} : UrlMarks).Le 0 := by constructor <;> simp
    simpa using urlScan_le hscan h0
  split at hpath
  case h_2 => cases hpath
  next a ha =>
  -- the text is that of the marks, from a slash on
  simp only [urlPart, Str.mk.injEq, Ptr.buf.injEq, true_and] at hpath
  obtain ⟨rfl, hxlen⟩ := hpath
  obtain ⟨hat, -, hend⟩ := hslash a ha
  have haw : a < w.length := by
    by_contra hge
    rw [List.getElem?_eq_none (by omega)] at hat
    cases hat
  have hpos : 0 < x.length := by
    rw [← hxlen]
    rcases he : k.pathEnd with _ | e
    · rw [Option.getD_none]
      omega
    · have := hend e he
      rw [Option.getD_some]
      omega
  have hx := Option.some.inj htext
  have hhead : x[0]? = some SLASH := by
    rw [hx, List.getElem?_take_of_lt hpos, List.getElem?_drop]
    show (w ++ [NUL])[0 + a + 0]? = some SLASH
    rw [Nat.zero_add, Nat.add_zero, List.getElem?_append_left haw, hat]
  cases x with
  | nil => simp at hpos
  | cons c t => exact ⟨t, by simpa using hhead⟩

/-! ## Where the file is -/

/-- The path of a request is the string `x`. -/
def HttpRequest.HasPath (r : HttpRequest) (x : List Byte) : Prop :=
  r.toHeap.cstr r.url.path.data = some x ∧ r.url.path.len = x.length

/-- Where a path leads in the working directory `cwd`. -/
abbrev resolvePath (cwd : List (List Byte)) (path : List Byte) : List (List Byte) :=
  resolve SLASH DOT cwd path

/-- The URL paths that stay below a root.  For `/` the last segment of the root must not
    name a directory, which the name of the default page would change.  Another path may
    go up if it comes down the same names again; behind an empty root it starts at the
    top. -/
def StaysBelow (cwd : List (List Byte)) (root x : List Byte) : Prop :=
  if x = [SLASH] then ∀ n, component DOT (lastSegment SLASH root) ≠ .name n
  else if root = [] then Below cwd (relative (components SLASH DOT x)).names
  else Below ((resolvePath cwd root).drop
    ((resolvePath cwd root).length - (relative (components SLASH DOT x)).ups))
    (relative (components SLASH DOT x)).names

theorem component_defaultPage (l : List Byte) :
    component DOT (l ++ bytes "index.html") = .name (l ++ bytes "index.html") := by
  have hlen : (bytes "index.html").length = 10 := by decide
  rw [component, if_neg, if_neg]
  · intro h
    have := congrArg List.length h
    simp only [List.length_append, hlen, List.length_cons, List.length_nil] at this
    omega
  · rintro (h | h) <;>
    · have := congrArg List.length h
      simp only [List.length_append, hlen, List.length_cons, List.length_nil] at this
      omega

/-- The file of a path is below the root just when the path stays there. -/
theorem below_root_iff (cwd : List (List Byte)) (root : List Byte) {x t : List Byte}
    (hx : x = SLASH :: t) :
    Below (resolvePath cwd root)
        (resolvePath cwd (root ++ if x = [SLASH] then bytes "index.html" else x))
      ↔ StaysBelow cwd root x := by
  unfold StaysBelow
  split
  · exact below_resolve_append cwd (by decide) (by decide) component_defaultPage root
  · -- the slash in front of the path ends the root
    have hrel : relative (components SLASH DOT x) = relative (components SLASH DOT t) := by
      rw [hx, show SLASH :: t = [] ++ SLASH :: t from rfl, components_append_cons]
      rfl
    split
    · next hroot =>
      subst hroot
      have hcwd : resolvePath cwd [] = cwd := rfl
      rw [hcwd, List.nil_append, resolvePath, resolve, hx, List.head?_cons, if_pos rfl,
        walk_relative, List.take_nil, List.nil_append]
    · next hroot =>
      rw [hrel, hx]
      exact below_resolve_append_cons cwd hroot t

/-- The path that is handed to `stat`. -/
theorem staticPath_ok (root : LocRoot) {r : HttpRequest} {x t : List Byte}
    (hr : r.HasPath x) (hx : x = SLASH :: t) :
    staticPath root r
      = .ok (root.text ++ if x = [SLASH] then bytes "index.html" else x) := by
  obtain ⟨hstr, hlen⟩ := hr
  have hhead : (r.str r.url.path.data).head? = some SLASH := by
    rw [Heap.str, hstr, hx]
    rfl
  have hone : r.url.path.len = 1 ↔ x = [SLASH] := by
    rw [hlen, hx]
    simp
  unfold staticPath
  by_cases h : x = [SLASH]
  · have hpage : r.toHeap.cstr DEFAULT_PAGE.data = some (bytes "index.html") := by
      show some ((bytes "index.html").takeWhile (· != NUL)) = some (bytes "index.html")
      decide
    simp only [hone, h, hhead, and_self, if_true, hpage]
    rw [if_neg]
    simp [Str.serverString]
  · simp only [hone, h, hhead, false_and, if_false, hstr]
    rw [if_neg]
    simp only [List.length_append]
    omega

/-- The module looks only for the file of the path. -/
theorem moduleDefault_calls (root : LocRoot) (fs : FileSystem) {r : HttpRequest}
    {path : List Byte} (hget : r.method = .get) (hpath : staticPath root r = .ok path) :
    ∃ r' calls, moduleDefaultHandleRequest root fs r = .ok (r', calls) ∧ calls ≠ [] ∧
      ∀ c ∈ calls, c.path = path := by
  simp only [moduleDefaultHandleRequest, hget, ne_eq, not_true_eq_false, if_false, hpath, bind,
    Except.bind]
  split
  · exact ⟨_, _, rfl, by simp, by simp [FileCall.path]⟩
  split
  · exact ⟨_, _, rfl, by simp, by simp [FileCall.path]⟩
  split
  · exact ⟨_, _, rfl, by simp, by simp [FileCall.path]⟩
  · exact ⟨_, _, rfl, by simp, by simp [FileCall.path]⟩

/-- The module returns, and what it hands to `stat` and `open` is below the root just when
    the path of a GET request stays there. -/
theorem moduleDefault_below (cwd : List (List Byte)) (root : LocRoot) (fs : FileSystem)
    {r : HttpRequest} {x : List Byte} (hx : AcceptedPath x) (hr : r.HasPath x) :
    ∃ r' calls, moduleDefaultHandleRequest root fs r = .ok (r', calls) ∧
      ((∀ c ∈ calls, Below (resolvePath cwd root.text) (resolvePath cwd c.path))
        ↔ (r.method = .get → StaysBelow cwd root.text x)) := by
  obtain ⟨t, ht⟩ := hx.slash
  by_cases hget : r.method = .get
  · obtain ⟨r', calls, hok, hne, hcalls⟩ :=
      moduleDefault_calls root fs hget (staticPath_ok root hr ht)
    refine ⟨r', calls, hok, ?_⟩
    rw [← below_root_iff cwd root.text ht]
    constructor
    · intro h _
      obtain ⟨c, hc⟩ := List.exists_mem_of_ne_nil calls hne
      rw [← hcalls c hc]
      exact h c hc
    · intro h c hc
      rw [hcalls c hc]
      exact h hget
  · refine ⟨_, [], by rw [moduleDefaultHandleRequest, if_pos hget], ?_⟩
    simp [hget]

/-- A request for a path under the root `/srv/www`. -/
def exampleRoot : LocRoot where
  text := bytes "/srv/www"

def pathRequest (x : String) : HttpRequest :=
  { url := { path := ⟨.lit (bytes x), (bytes x).length⟩ } }

/-- No file is there: `stat` is called, and fails. -/
def noFiles : FileSystem := ⟨fun _ => none, fun _ => none⟩

theorem moduleDefault_below_page :
    ∃ r' calls, moduleDefaultHandleRequest exampleRoot noFiles (pathRequest "/a.html")
        = .ok (r', calls) ∧
      ∀ c ∈ calls, Below (resolvePath [] exampleRoot.text) (resolvePath [] c.path) := by
  obtain ⟨r', calls, hok, hiff⟩ := moduleDefault_below [] exampleRoot noFiles
    (r := pathRequest "/a.html") (x := bytes "/a.html")
    ⟨bytes "/a.html", by decide +kernel, by decide, 0, by decide, by decide⟩
    ⟨by decide, rfl⟩
  refine ⟨r', calls, hok, hiff.mpr fun _ => ?_⟩
  rw [StaysBelow, if_neg (by decide), if_neg (by decide)]
  decide

/-- A URL path with `..` leaves the root. -/
theorem moduleDefault_climbs :
    ¬ ∀ (cwd : List (List Byte)) (root : LocRoot) (fs : FileSystem) (r : HttpRequest)
      (x : List Byte), AcceptedPath x → r.HasPath x →
      ∃ r' calls, moduleDefaultHandleRequest root fs r = .ok (r', calls) ∧
        ∀ c ∈ calls, Below (resolvePath cwd root.text) (resolvePath cwd c.path) := by
  intro h
  obtain ⟨r', calls, hok, hbelow⟩ := h [] exampleRoot noFiles
    (pathRequest "/../secret") (bytes "/../secret")
    ⟨bytes "/../secret", by decide +kernel, by decide, 0, by decide, by decide⟩
    ⟨by decide, rfl⟩
  obtain ⟨q, calls', hok', hne, hcalls⟩ := moduleDefault_calls exampleRoot noFiles rfl
    (show staticPath exampleRoot (pathRequest "/../secret") = .ok (bytes "/srv/www/../secret")
      by rfl)
  obtain ⟨-, rfl⟩ : r' = q ∧ calls = calls' := by simpa using hok.symm.trans hok'
  obtain ⟨c, hc⟩ := List.exists_mem_of_ne_nil calls hne
  have := hbelow c hc
  rw [hcalls c hc] at this
  revert this
  decide

end XwpServer

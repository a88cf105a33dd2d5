/-
  XwpServer.Response

  The head of a response, as `connection_send_response` prints it.

  The server sets three headers of its own, asks for a block of the length it computes
  from the table, and prints the status line and the entries into it, each with the space
  that is left as the limit.  A head that is handed to `nwrite` has passed the assertion
  on its length, so nothing in it has been cut off (`connectionResponseHead_text`).
-/

import XwpServer.HeaderTable
import XwpServer.HeadTable
import XwpServer.Uwsgi

namespace XwpServer

open CString

/-! ## The status line -/

/-- `http_status_infos`. -/
def httpStatusInfos : List (Int × String) := [
  (200, "200 OK"), (201, "201 Created"), (202, "202 Accepted"), (204, "204 No Content"),
  (206, "206 Partial Content"), (301, "301 Moved Permanently"),
  (302, "302 Moved Temporarily"), (303, "303 See Other"), (304, "304 Not Modified"),
  (307, "307 Temporary Redirect"), (400, "400 Bad Request"), (401, "401 Unauthorized"),
  (402, "402 Payment Required"), (403, "403 Forbidden"), (404, "404 Not Found"),
  (405, "405 Not Allowed"), (406, "406 Not Acceptable"), (408, "408 Request Time-out"),
  (409, "409 Conflict"), (410, "410 Gone"), (411, "411 Length Required"),
  (412, "412 Precondition Failed"), (413, "413 Request Entity Too Large"),
  (415, "415 Unsupported Media Type"), (416, "416 Requested Range Not Satisfiable"),
  (500, "500 Internal Server Error"), (501, "501 Method Not Implemented"),
  (502, "502 Bad Gateway"), (503, "503 Service Temporarily Unavailable"),
  (504, "504 Gateway Time-out"), (507, "507 Insufficient Storage")]

/-- The loop of `http_status_line`, for at most `fuel` rounds; it is cut off with `none`.
    The table is read at `mid`, which may be the index behind its last entry; a status that
    is not found fails the assertion. -/
def statusLineSearch (status : Int) :
    (fuel : Nat) → (low high : Int) → Option (Except Stop (List Byte))
  | 0, _, _ => none
  | fuel + 1, low, high =>
      if high < low then some (.error .assert)
      else
        let mid := (low + high) / 2
        match httpStatusInfos[mid.toNat]? with
        | none => some (.error .fault)
        | some (s, line) =>
            if s = status then some (.ok (bytes line))
            else if s < status then statusLineSearch status fuel (mid + 1) high
            else statusLineSearch status fuel low (mid - 1)

/-- The loop ends: every round leaves fewer indices to look at. -/
theorem statusLineSearch_isSome (status : Int) {fuel : Nat} {low high : Int}
    (h : (high + 1 - low).toNat < fuel) : (statusLineSearch status fuel low high).isSome := by
  induction fuel generalizing low high with
  | zero => cases h
  | succ fuel ih =>
      rw [statusLineSearch]
      split
      · rfl
      dsimp only
      split
      · rfl
      split
      · rfl
      split
      · exact ih (by omega)
      · exact ih (by omega)

/-- `http_status_line`; `high` starts at the number of entries. -/
def httpStatusLine (status : Int) : Except Stop (List Byte) :=
  (statusLineSearch status (httpStatusInfos.length + 2) 0 httpStatusInfos.length).get
    (statusLineSearch_isSome status (by omega))

theorem httpStatusLine_eq {status : Int} {x : Except Stop (List Byte)} :
    httpStatusLine status = x ↔
      statusLineSearch status (httpStatusInfos.length + 2) 0 httpStatusInfos.length = some x := by
  rw [httpStatusLine, Option.eq_some_iff_get_eq]
  constructor
  · exact fun h => ⟨_, h⟩
  · rintro ⟨_, h⟩
    exact h

/-! ## The head -/

/-- The headers `connection_send_response` sets, in their order. -/
def serverHeaders (r : HttpRequest) : List (Str × Str) := [
  (HTTP_HEADER_CONNECTION, if r.keepAlive then HTTP_HEADER_KEEPALIVE else HTTP_HEADER_CLOSE),
  (HTTP_HEADER_SERVER, HTTP_HEADER_XWP_VER),
  (HTTP_HEADER_CONTENT_LEN,
    if 0 < r.bodyOut.contentLen then
      ⟨.lit (sprintfInt r.bodyOut.contentLen), (sprintfInt r.bodyOut.contentLen).length⟩
    else .serverString "0")]

/-- The table that is printed. -/
def responseTable (r : HttpRequest) : List Header :=
  (serverHeaders r).foldl (fun hs p => httpHeaderSet r.toHeap hs p.1 p.2) r.headersOut.headers

/-- `connection_response_headers_len`. -/
def connectionResponseHeadersLen (statusLine : List Byte) (headers : List Header) : Nat :=
  (bytes "HTTP/1.x ").length + statusLine.length + 2 +
    (headers.map fun e => e.name.len + e.value.len + 4).sum + 2

/-- `headers_len - num`, as the `size_t` that `snprintf` takes. -/
def spaceLeft (headersLen num : Nat) : Nat :=
  if num ≤ headersLen then headersLen - num else 2 ^ 64 - (num - headersLen)

/-- `snprintf(m + pos, size, ...)` of a text; with the position behind the whole text. -/
def snprintf (m : List Byte) (pos size : Nat) (text : List Byte) :
    Except Stop (List Byte × Nat) :=
  if size = 0 then .ok (m, pos + text.length)
  else do
    let m ← store m pos (text.take (size - 1) ++ [NUL])
    return (m, pos + text.length)

/-- `name: value` and a line end. -/
def headerText (name value : List Byte) : List Byte := name ++ COLON :: SP :: value ++ [CR, LF]

/-- The string that `%s` prints. -/
def Heap.printed (h : Heap) (p : Ptr) : Except Stop (List Byte) :=
  match h.cstr p with
  | none => .error .nullDeref
  | some s => .ok s

/-- A round of the loop that prints the table. -/
def printHeader (h : Heap) (headersLen : Nat) (x : List Byte × Nat) (e : Header) :
    Except Stop (List Byte × Nat) := do
  let name ← h.printed e.name.data
  let value ← h.printed e.value.data
  snprintf x.1 x.2 (spaceLeft headersLen x.2) (headerText name value)

/-- The bytes `connection_send_response` hands to `nwrite` as the head. -/
def connectionResponseHead (r : HttpRequest) : Except Stop (List Byte) := do
  let headers := responseTable r
  let statusLine ← httpStatusLine r.status
  let headersLen := connectionResponseHeadersLen statusLine headers
  let version ← r.toHeap.printed r.versionStr.data
  let x ← snprintf (List.replicate headersLen NUL) 0 (spaceLeft headersLen 0)
    (version ++ SP :: statusLine ++ [CR, LF])
  let x ← headers.foldlM (printHeader r.toHeap headersLen) x
  let m ← store x.1 x.2 [CR]
  let m ← store m (x.2 + 1) [LF]
  if x.2 + 2 = headersLen then return m else .error .assert

/-! ## What is printed -/

theorem store_ok {m m' bs : List Byte} {pos : Nat} (h : store m pos bs = .ok m') :
    m'.length = m.length ∧ m'.take (pos + bs.length) = m.take pos ++ bs := by
  unfold store at h
  split at h
  case isTrue => cases h
  case isFalse hle =>
    cases h
    exact ⟨writeAt_length (by omega), take_end_writeAt (by omega)⟩

/-- A text that leaves space in the block has not been cut off. -/
theorem snprintf_ok {m m' text : List Byte} {pos pos' headersLen : Nat}
    (h : snprintf m pos (spaceLeft headersLen pos) text = .ok (m', pos')) :
    pos' = pos + text.length ∧ m'.length = m.length ∧
      (pos' < headersLen → m'.take pos' = m.take pos ++ text) := by
  unfold snprintf at h
  split at h
  case isTrue hsize =>
    cases h
    refine ⟨rfl, rfl, fun hlt => ?_⟩
    rw [spaceLeft, if_pos (by omega)] at hsize
    omega
  case isFalse hsize =>
    cases hstore : store m pos (text.take (spaceLeft headersLen pos - 1) ++ [NUL]) with
    | error e =>
        rw [hstore] at h
        cases h
    | ok m₁ =>
        rw [hstore] at h
        cases h
        obtain ⟨hlen, htake⟩ := store_ok hstore
        refine ⟨rfl, hlen, fun hlt => ?_⟩
        have hall : text.take (spaceLeft headersLen pos - 1) = text := by
          rw [spaceLeft, if_pos (by omega)]
          exact List.take_of_length_le (by omega)
        rw [hall] at hstore htake
        have hfit : pos ≤ m.length := by
          unfold store at hstore
          split at hstore
          · cases hstore
          · omega
        -- the zero byte stands behind the text
        have hcut := congrArg (List.take (pos + text.length)) htake
        rw [List.take_take, List.length_append, List.length_singleton,
          Nat.min_eq_left (by omega), ← List.append_assoc] at hcut
        rw [hcut]
        apply List.take_left'
        rw [List.length_append, List.length_take]
        omega

/-- The text of an entry. -/
def Heap.headerText (h : Heap) (e : Header) : List Byte :=
  XwpServer.headerText (h.str e.name.data) (h.str e.value.data)

theorem Heap.printed_ok {h : Heap} {p : Ptr} {s : List Byte} (hp : h.printed p = .ok s) :
    s = h.str p := by
  unfold printed at hp
  rw [Heap.str]
  cases hc : h.cstr p with
  | none =>
      rw [hc] at hp
      cases hp
  | some s' =>
      rw [hc] at hp
      exact (Except.ok.inj hp).symm

theorem printHeader_ok {h : Heap} {headersLen : Nat} {x y : List Byte × Nat} {e : Header}
    (hp : printHeader h headersLen x e = .ok y) :
    y.2 = x.2 + (h.headerText e).length ∧ y.1.length = x.1.length ∧
      (y.2 < headersLen → y.1.take y.2 = x.1.take x.2 ++ h.headerText e) := by
  unfold printHeader at hp
  cases hn : h.printed e.name.data with
  | error s =>
      rw [hn] at hp
      cases hp
  | ok name =>
      rw [hn] at hp
      cases hv : h.printed e.value.data with
      | error s =>
          rw [hv] at hp
          cases hp
      | ok value =>
          rw [hv] at hp
          obtain rfl := Heap.printed_ok hn
          obtain rfl := Heap.printed_ok hv
          exact snprintf_ok hp

/-- What the loop prints, if it leaves space in the block: the texts of the entries. -/
theorem printHeaders_ok {h : Heap} {headersLen : Nat} {headers : List Header}
    {x y : List Byte × Nat} (hp : headers.foldlM (printHeader h headersLen) x = .ok y) :
    x.2 ≤ y.2 ∧ y.1.length = x.1.length ∧
      (y.2 < headersLen → y.1.take y.2 = x.1.take x.2 ++ headers.flatMap h.headerText) := by
  induction headers generalizing x with
  | nil =>
      cases hp
      exact ⟨Nat.le_refl _, rfl, fun _ => by simp⟩
  | cons e headers ih =>
      rw [List.foldlM_cons] at hp
      cases he : printHeader h headersLen x e with
      | error s =>
          rw [he] at hp
          cases hp
      | ok x' =>
          rw [he] at hp
          obtain ⟨hpos, hlen, htext⟩ := printHeader_ok he
          obtain ⟨hle, hlen', htext'⟩ := ih hp
          refine ⟨by omega, hlen'.trans hlen, fun hlt => ?_⟩
          rw [htext' hlt, htext (by omega), List.flatMap_cons, List.append_assoc]

/-- The first line of the head of a response. -/
def firstLineText (r : HttpRequest) (statusLine : List Byte) : List Byte :=
  r.str r.versionStr.data ++ SP :: statusLine ++ [CR, LF]

/-- A head that is written is the first line, the lines of the table and the empty line. -/
theorem connectionResponseHead_text {r : HttpRequest} {head : List Byte}
    (h : connectionResponseHead r = .ok head) :
    ∃ statusLine, httpStatusLine r.status = .ok statusLine ∧
      head = firstLineText r statusLine ++ (responseTable r).flatMap r.headerText ++
        [CR, LF] := by
  simp only [connectionResponseHead, Except.bind_eq_ok] at h
  obtain ⟨statusLine, hline, version, hversion, x, hfirst, y, hloop, m₁, hcr, m₂, hlf, h⟩ := h
  obtain rfl := Heap.printed_ok hversion
  refine ⟨statusLine, hline, ?_⟩
  split at h
  case isFalse => cases h
  next hlen =>
  cases h
  obtain ⟨hpos, hxlen, hxtext⟩ := snprintf_ok hfirst
  obtain ⟨hle, hylen, hytext⟩ := printHeaders_ok hloop
  have hx : x.1.take x.2 = firstLineText r statusLine := by
    rw [hxtext (by omega), List.take_zero, List.nil_append]
    rfl
  obtain ⟨hm₁, hcr⟩ := store_ok hcr
  obtain ⟨hm₂, hlf⟩ := store_ok hlf
  have hall : head.length = y.2 + 1 + 1 := by
    rw [hm₂, hm₁, hylen, hxlen, List.length_replicate]
    omega
  rw [List.length_singleton] at hcr hlf
  rw [← hall, List.take_length] at hlf
  rw [hlf, hcr, hytext (by omega), hx]
  simp only [List.append_assoc, List.cons_append, List.nil_append]

end XwpServer

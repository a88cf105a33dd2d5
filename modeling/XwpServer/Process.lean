/-
  XwpServer.Process

  `http_process_request_line`, `http_process_status_line` and
  `http_process_header_line` (`http_request.c`), and `nwrite` (`utils.c`).

  A call takes the outcomes of the system calls it will make and returns, or
  blocks in the next call for which there is no outcome, or stops.
-/

import XwpServer.RecvLoop

namespace XwpServer

open CString Scan

/-! ## Calls -/

/-- The outcome of one `send`: the bytes it took, or `-1` and an `errno`. -/
inductive SendEvent where
  | sent (n : Nat)
  | error (e : Errno)
  deriving DecidableEq, Repr

/-- A descriptor as its one user sees it: the outcomes of the calls to come and
    the bytes sent so far. -/
structure Io where
  errno : Errno := .none
  recvs : List RecvEvent := []
  sends : List SendEvent := []
  sent : List Byte := []
  deriving DecidableEq, Repr

/-- The end of a call: it returns, it is blocked (or spinning) in a system call, or
    it stops. -/
inductive Outcome (α : Type) where
  | ret (a : α)
  | wait (h : Heap)
  | stop (s : Stop)
  deriving DecidableEq, Repr

def Outcome.bind {α β : Type} (x : Outcome α) (f : α → Outcome β) : Outcome β :=
  match x with
  | .ret a => f a
  | .wait h => .wait h
  | .stop s => .stop s

theorem Outcome.bind_eq_ret {α β : Type} {x : Outcome α} {f : α → Outcome β} {b : β} :
    x.bind f = .ret b ↔ ∃ a, x = .ret a ∧ f a = .ret b := by
  cases x <;> simp [Outcome.bind]

theorem Outcome.bind_eq_stop {α β : Type} {x : Outcome α} {f : α → Outcome β} {s : Stop} :
    x.bind f = .stop s ↔ x = .stop s ∨ ∃ a, x = .ret a ∧ f a = .stop s := by
  cases x <;> simp [Outcome.bind]

/-! ## `nwrite` -/

/-- The loop of `nwrite` before a `send`: what is left to send, `errno`, and what
    has been sent. -/
structure Sending where
  rest : List Byte
  errno : Errno
  sent : List Byte

/-- The end of `nwrite`. -/
inductive SendEnd where
  | ret (ok : Bool) (errno : Errno) (sent : List Byte)
  | stop (s : Stop)

/-- What the loop of `nwrite` does with the outcome of a `send`. -/
def onSend (w : Sending) : SendEvent → Sending ⊕ SendEnd
  | .error e =>
    if e = .eintr ∨ e = .eagain then .inl { w with errno := e } else .inr (.ret false e w.sent)
  | .sent n =>
    if w.rest.length < n then .inr (.stop .misfit)
    else if n = 0 then
      if w.errno = .eintr ∨ w.errno = .eagain then .inl w
      else .inr (.ret false w.errno w.sent)
    else if w.rest.drop n = [] then .inr (.ret true w.errno (w.sent ++ w.rest.take n))
    else .inl { w with rest := w.rest.drop n, sent := w.sent ++ w.rest.take n }

/-- `nwrite`; `h` is the heap the caller waits with. -/
def nwrite (h : Heap) (io : Io) (bs : List Byte) : Outcome (Bool × Io) :=
  if bs = [] then .stop .assert
  else
    match Feed.feed onSend (.inl ⟨bs, io.errno, io.sent⟩) io.sends with
    | (.inl _, _) => .wait h
    | (.inr (.stop s), _) => .stop s
    | (.inr (.ret ok errno sent), sends) =>
      .ret (ok, { io with errno := errno, sends := sends, sent := sent })

/-- `nwrite` leaves what is to be received. -/
theorem nwrite_recvs {h : Heap} {io io' : Io} {bs : List Byte} {ok : Bool}
    (hw : nwrite h io bs = .ret (ok, io')) : io'.recvs = io.recvs := by
  unfold nwrite at hw
  split at hw
  · cases hw
  split at hw
  · cases hw
  · cases hw
  · cases hw
    rfl

/-- `nwrite` stops for nothing but an outcome that `send` does not have. -/
theorem nwrite_stop {h : Heap} {io : Io} {bs : List Byte} {s : Stop} (hbs : bs ≠ [])
    (hw : nwrite h io bs = .stop s) : s = .misfit := by
  have hend := Feed.feed_invariant onSend (P := fun _ => True)
    (Q := fun x => ∀ s, x = .stop s → s = .misfit) ?_ (s := .inl ⟨bs, io.errno, io.sent⟩) trivial
    io.sends
  · simp only [nwrite, if_neg hbs] at hw
    split at hw
    · cases hw
    · next s' rest hfeed =>
      rw [hfeed] at hend
      cases hw
      exact hend s rfl
    · cases hw
  · intro w e _
    cases e with
    | error e =>
        rw [onSend]
        split
        · trivial
        · exact fun _ h => by cases h
    | sent n =>
        rw [onSend]
        split
        · exact fun _ h => by cases h; rfl
        split
        · split
          · trivial
          · exact fun _ h => by cases h
        split
        · exact fun _ h => by cases h
        · trivial

/-! ## The receive loops -/

/-- The status the loop leaves behind. -/
def LoopExit.status (e : LoopExit) (status : Int) : Int :=
  match e with
  | .done => status
  | .badRequest => HTTP_STATUS_BAD_REQUEST
  | .closed => HTTP_STATUS_CLOSE
  | .noLargeBuf => HTTP_STATUS_INTERNAL_SERVER_ERROR

/-- What the three functions do with the end of their loop; `put` stores what the
    parser has recorded. -/
def finishLines {σ : Type} (put : HttpRequest → σ → HttpRequest) (r : HttpRequest) (io : Io) :
    (Waiting σ ⊕ LoopEnd σ) × List RecvEvent → Outcome (Bool × HttpRequest × Io)
  | (.inl w, _) => .wait w.heap
  | (.inr (.stop s), _) => .stop s
  | (.inr (.exit e x h errno), recvs) =>
    let r := { put r x with toHeap := h }
    .ret (decide (e = .done), { r with status := e.status r.status },
      { io with errno := errno, recvs := recvs })

/-- The receive loop inside a request: `get` and `put` are the part of the request
    the parser writes to. -/
def processLines {σ : Type} (conf : Conf) (parse : Nat → Parse σ) (get : HttpRequest → σ)
    (put : HttpRequest → σ → HttpRequest) (r : HttpRequest) (io : Io) :
    Outcome (Bool × HttpRequest × Io) :=
  let buf := r.headerBuf
  finishLines put r io (recvLoop conf (parse buf) buf ⟨get r, r.toHeap, io.errno⟩ io.recvs)

/-- `http_process_request_line`. -/
def httpProcessRequestLine (conf : Conf) (r : HttpRequest) (io : Io) :
    Outcome (Bool × HttpRequest × Io) :=
  if r.state ≠ .none then .stop .assert
  else
    let r := { r with toHeap := httpAllocClientHeaderBuf conf r.toHeap, state := .requestLine }
    processLines conf httpParseRequestLine (·.toRequestLine)
      (fun r l => { r with toRequestLine := l }) r io

/-- `http_process_status_line`. -/
def httpProcessStatusLine (conf : Conf) (r : HttpRequest) (io : Io) :
    Outcome (Bool × HttpRequest × Io) :=
  if r.state ≠ .contentBody then .stop .assert
  else
    let r := { r with toHeap := httpAllocClientHeaderBuf conf r.toHeap, state := .statusLine }
    processLines conf httpParseStatusLine (·.status) (fun r s => { r with status := s }) r io

/-! ## The header lines -/

/-- `HTTP_PROCESS_PHASE_REQUEST` and `HTTP_PROCESS_PHASE_RESPONSE`. -/
inductive Phase where
  | request | response
  deriving DecidableEq, Repr

namespace HttpRequest

/-- The header table of a phase. -/
def headers (r : HttpRequest) : Phase → List Header
  | .request => r.headersIn.headers
  | .response => r.headersOut.headers

def setHeaders (r : HttpRequest) (p : Phase) (hs : List Header) : HttpRequest :=
  match p with
  | .request => { r with headersIn := { r.headersIn with headers := hs } }
  | .response => { r with headersOut := { r.headersOut with headers := hs } }

/-- The state `http_process_header_line` asserts. -/
def headerLineReady (r : HttpRequest) : Phase → Bool
  | .request => r.state = .requestLine
  | .response => r.state = .statusLine

/-- `request->keep_alive` from the version and the `Keep-Alive` header; a value that
    is NULL has length 0, so it is not read. -/
def keepAliveOf (r : HttpRequest) : Bool :=
  match httpHeaderStr r.toHeap r.headersIn.headers HTTP_HEADER_KEEPALIVE with
  | none => r.version = .v11
  | some v => !strncasecmpEq (r.str v.data) (bytes "CLOSE") v.len

/-- `headers_in` behind the header loop; `none` when `atoi` is handed NULL. -/
def fillHeadersIn (r : HttpRequest) : Option HttpRequest := do
  let str := httpHeaderStr r.toHeap r.headersIn.headers
  let contentLen ← httpHeaderInt r.toHeap r.headersIn.headers HTTP_HEADER_CONTENT_LEN
  return { r with
    keepAlive := r.keepAliveOf
    headersIn := { r.headersIn with
      headerHost := str HTTP_HEADER_HOST
      headerContentType := str HTTP_HEADER_CONTENT_TYPE
      headerContentLen := str HTTP_HEADER_CONTENT_LEN
      contentLen := if contentLen < 0 then 0 else contentLen } }

theorem fillHeadersIn_eq_some {r r' : HttpRequest} (h : r.fillHeadersIn = some r') :
    ∃ n, httpHeaderInt r.toHeap r.headersIn.headers HTTP_HEADER_CONTENT_LEN = some n ∧
      r' = { r with
        keepAlive := r.keepAliveOf
        headersIn := { r.headersIn with
          headerHost := httpHeaderStr r.toHeap r.headersIn.headers HTTP_HEADER_HOST
          headerContentType := httpHeaderStr r.toHeap r.headersIn.headers HTTP_HEADER_CONTENT_TYPE
          headerContentLen := httpHeaderStr r.toHeap r.headersIn.headers HTTP_HEADER_CONTENT_LEN
          contentLen := if n < 0 then 0 else n } } := by
  simp only [fillHeadersIn, Option.bind_eq_bind, Option.bind_eq_some_iff, Option.pure_def,
    Option.some.injEq] at h
  obtain ⟨n, hn, rfl⟩ := h
  exact ⟨n, hn, rfl⟩

end HttpRequest

/-- `HTTP/1.1 100 Continue` and the two line ends the source writes. -/
def continueLine : List Byte :=
  bytes "HTTP/1.1 100 Continue" ++ [CR, LF, CR, LF]

/-- The `Expect` branch of `http_process_header_line`. -/
def answerExpect (r : HttpRequest) (io : Io) : Outcome (Bool × HttpRequest × Io) :=
  match httpHeaderStr r.toHeap r.headersIn.headers HTTP_HEADER_EXPECT with
  | none => .ret (true, r, io)
  | some expect =>
    match r.toHeap.cstr expect.data with
    | none => .stop .nullDeref
    | some s =>
      if strcasecmpEq s (bytes "100-continue") then
        (nwrite r.toHeap io continueLine).bind fun (ok, io) => .ret (ok, r, io)
      else .ret (true, r, io)

/-- The answer to `Expect` changes nothing in the request. -/
theorem answerExpect_keeps {r r' : HttpRequest} {io io' : Io} {ok : Bool}
    (h : answerExpect r io = .ret (ok, r', io')) : r' = r := by
  unfold answerExpect at h
  split at h
  · cases h
    rfl
  split at h
  · cases h
  split at h
  · obtain ⟨⟨ok', io''⟩, -, h⟩ := Outcome.bind_eq_ret.mp h
    cases h
    rfl
  · cases h
    rfl

theorem answerExpect_recvs {r r' : HttpRequest} {io io' : Io} {ok : Bool}
    (h : answerExpect r io = .ret (ok, r', io')) :
    io'.recvs = io.recvs := by
  unfold answerExpect at h
  split at h
  · cases h
    rfl
  split at h
  · cases h
  split at h
  · obtain ⟨⟨ok', io''⟩, hw, h⟩ := Outcome.bind_eq_ret.mp h
    cases h
    exact nwrite_recvs hw
  · cases h
    rfl

/-- The part of `http_process_header_line` behind its loop. -/
def headersDone (phase : Phase) (r : HttpRequest) (io : Io) :
    Outcome (Bool × HttpRequest × Io) :=
  match phase with
  | .request =>
    match r.fillHeadersIn with
    | none => .stop .nullDeref
    | some r => answerExpect r io
  | .response =>
    match httpHeaderInt r.toHeap r.headersOut.headers HTTP_HEADER_CONTENT_LEN with
    | none => .stop .nullDeref
    | some n =>
      .ret (true, { r with headersOut := { r.headersOut with contentLen := n } }, io)

/-- Behind the header lines of a request: `headers_in` is filled, and nothing else happens to
    the request. -/
theorem headersDone_request {r r' : HttpRequest} {io io' : Io} {ok : Bool}
    (h : headersDone .request r io = .ret (ok, r', io')) :
    r.fillHeadersIn = some r' ∧ answerExpect r' io = .ret (ok, r', io') := by
  simp only [headersDone] at h
  split at h
  · cases h
  next q hfill =>
  obtain rfl := answerExpect_keeps h
  exact ⟨hfill, h⟩

/-- Behind the header lines of a reply: only the length is read off the table. -/
theorem headersDone_response {r r' : HttpRequest} {io io' : Io} {ok : Bool}
    (h : headersDone .response r io = .ret (ok, r', io')) :
    ok = true ∧ io' = io ∧
      ∃ n, httpHeaderInt r.toHeap r.headersOut.headers HTTP_HEADER_CONTENT_LEN = some n ∧
        r' = { r with headersOut := { r.headersOut with contentLen := n } } := by
  simp only [headersDone] at h
  split at h
  · cases h
  next n hn =>
  cases h
  exact ⟨rfl, rfl, n, hn, rfl⟩

/-- The loop of `http_process_header_line`. -/
def httpHeaderLoop (conf : Conf) (phase : Phase) (r : HttpRequest) (io : Io) :
    Outcome (Bool × HttpRequest × Io) :=
  if !r.headerLineReady phase then .stop .assert
  else
    processLines conf (httpParseHeaderLine httpHeaderSet) (·.headers phase)
      (·.setHeaders phase) { r with state := .headerLine } io

/-- `http_process_header_line`. -/
def httpProcessHeaderLine (conf : Conf) (phase : Phase) (r : HttpRequest) (io : Io) :
    Outcome (Bool × HttpRequest × Io) :=
  (httpHeaderLoop conf phase r io).bind fun (ok, r, io) =>
    if ok then headersDone phase r io else .ret (false, r, io)

/-- Header lines that are accepted come out of the loop and of what is behind it. -/
theorem httpProcessHeaderLine_accepted {conf : Conf} {phase : Phase} {r r' : HttpRequest}
    {io io' : Io} (h : httpProcessHeaderLine conf phase r io = .ret (true, r', io')) :
    ∃ q io₁, httpHeaderLoop conf phase r io = .ret (true, q, io₁) ∧
      headersDone phase q io₁ = .ret (true, r', io') := by
  obtain ⟨⟨ok, q, io₁⟩, hloop, hdone⟩ := Outcome.bind_eq_ret.mp h
  cases ok with
  | false => cases hdone
  | true => exact ⟨q, io₁, hloop, hdone⟩

/-- Behind a loop that has come to the end of the head. -/
theorem headersDone_of_loop {conf : Conf} {phase : Phase} {r q r' : HttpRequest} {io io₁ io' : Io}
    {ok : Bool} (hloop : httpHeaderLoop conf phase r io = .ret (true, q, io₁))
    (h : httpProcessHeaderLine conf phase r io = .ret (ok, r', io')) :
    headersDone phase q io₁ = .ret (ok, r', io') := by
  obtain ⟨⟨okLoop, q', io₁'⟩, hloop', hdone⟩ := Outcome.bind_eq_ret.mp h
  rw [hloop, Outcome.ret.injEq, Prod.mk.injEq, Prod.mk.injEq] at hloop'
  obtain ⟨rfl, rfl, rfl⟩ := hloop'
  exact hdone

/-! ## The head -/

/-- The first line of a phase. -/
def httpProcessFirstLine (conf : Conf) (phase : Phase) (r : HttpRequest) (io : Io) :
    Outcome (Bool × HttpRequest × Io) :=
  match phase with
  | .request => httpProcessRequestLine conf r io
  | .response => httpProcessStatusLine conf r io

/-- The first line and the header lines, as `connection_gen_request` and
    `upstream_uwsgi_process` call for them. -/
def httpProcessHead (conf : Conf) (phase : Phase) (r : HttpRequest) (io : Io) :
    Outcome (Bool × HttpRequest × Io) :=
  (httpProcessFirstLine conf phase r io).bind fun (ok, r, io) =>
    if ok then httpProcessHeaderLine conf phase r io else .ret (false, r, io)

end XwpServer

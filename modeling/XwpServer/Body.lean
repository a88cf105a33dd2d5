/-
  XwpServer.Body

  `http_process_content_body` (`http_request.c`), for the body of a request and
  the body of a backend's response.
-/

import XwpServer.Process

namespace XwpServer

open CString Scan

/-! ## The body of a phase -/

namespace HttpRequest

/-- `&request->body_in` and `&request->body_out`. -/
def body (r : HttpRequest) : Phase → ContentBody
  | .request => r.bodyIn
  | .response => r.bodyOut

def setBody (r : HttpRequest) (p : Phase) (b : ContentBody) : HttpRequest :=
  match p with
  | .request => { r with bodyIn := b }
  | .response => { r with bodyOut := b }

end HttpRequest

/-- `recv(fd, buf->last, buf->end - buf->last, 0)` into a block of the heap. -/
def BodyBuf.recv (b : BodyBuf) (h : Heap) (bs : List Byte) : Except Stop (BodyBuf × Heap) :=
  let block := h.buf b.block
  if ptrDiff b.end_ b.last < bs.length then .error .misfit
  else if block.mem.length < b.last + bs.length then .error .fault
  else .ok ({ b with last := b.last + bs.length },
    h.setBuf b.block { block with mem := writeAt block.mem b.last bs })

/-- `buf_create` returns NULL: `sizeof(buf_t) + size` is negative as an `int`, which
    `pool_calloc` refuses. -/
def BufRefused (size : Int) : Prop := 2 ^ 31 ≤ BUF_SIZE + size

instance (size : Int) : Decidable (BufRefused size) := inferInstanceAs (Decidable (_ ≤ _))

/-- `buf_create` for a body, and the copy of the bytes `bs` into it. -/
def Heap.bodyCreate (h : Heap) (size : Nat) (bs : List Byte) :
    Except Stop (Option (BodyBuf × Heap)) :=
  if BufRefused size then .ok none
  else if size < bs.length then .error .fault
  else
    .ok (some (⟨h.bufs.length, 0, bs.length, size⟩,
      { h with bufs := h.bufs ++
        [⟨writeAt (bufCreate size).mem 0 bs, 0, 0, size⟩] }))

/-- A buffer that was created is a new block, with the bytes at its start. -/
theorem Heap.bodyCreate_some {h h' : Heap} {size : Nat} {bs : List Byte} {b : BodyBuf}
    (hb : h.bodyCreate size bs = .ok (some (b, h'))) :
    ¬ BufRefused size ∧ bs.length ≤ size ∧ b = ⟨h.bufs.length, 0, bs.length, size⟩ ∧
      h' = { h with bufs := h.bufs ++ [⟨writeAt (bufCreate size).mem 0 bs, 0, 0, size⟩] } := by
  unfold Heap.bodyCreate at hb
  split_ifs at hb with hbig hsmall
  · cases hb
  · cases hb
    exact ⟨hbig, by omega, rfl, rfl⟩

theorem Heap.bodyCreate_eq_none {h : Heap} {size : Nat} {bs : List Byte} :
    h.bodyCreate size bs = .ok none ↔ BufRefused size := by
  unfold Heap.bodyCreate
  split_ifs with hbig hsmall
  · exact iff_of_true rfl hbig
  · exact iff_of_false (fun h => by cases h) hbig
  · exact iff_of_false (fun h => by cases h) hbig

/-- The copy goes outside the block. -/
theorem Heap.bodyCreate_error {h : Heap} {size : Nat} {bs : List Byte} {s : Stop}
    (hs : h.bodyCreate size bs = .error s) : size < bs.length := by
  unfold Heap.bodyCreate at hs
  split_ifs at hs with hbig hsmall
  exact hsmall

/-- The state of either receive loop: the buffer it fills, and how many bytes of
    the body it has counted. -/
structure Receiving where
  cur : BodyBuf
  heap : Heap
  errno : Errno
  len : Int

/-- How a receive loop of the body is left. -/
inductive BodyExit where
  | done | badRequest | closed | noMemory
  deriving DecidableEq, Repr

inductive BodyEnd where
  | exit (e : BodyExit) (w : Receiving)
  | stop (s : Stop)

/-! ## A body that ends when the peer closes -/

/-- `alloc_buf_len`, in `int` arithmetic. -/
def allocBufLen (conf : Conf) (curBufLen : Int) : Int :=
  if curBufLen < conf.contentBodyBufSize then conf.contentBodyBufSize
  else toInt32 (curBufLen + curBufLen / 2)

/-- Grow the buffer if it is full. -/
def growBody (conf : Conf) (w : Receiving) : Receiving ⊕ BodyEnd :=
  if w.cur.last = w.cur.end_ then
    let curBufLen : Int := (w.cur.last : Int) - w.cur.pos
    if curBufLen > conf.maxContentLen then .inr (.exit .badRequest w)
    else if allocBufLen conf curBufLen < 0 then .inr (.stop .assert)
    else
      let bs := ((w.heap.buf w.cur.block).mem.drop w.cur.pos).take (w.cur.last - w.cur.pos)
      match w.heap.bodyCreate (allocBufLen conf curBufLen).toNat bs with
      | .error s => .inr (.stop s)
      | .ok none => .inr (.exit .noMemory w)
      | .ok (some (cur, h)) => .inl { w with cur := cur, heap := h }
  else .inl w

/-- One `recv` of the loop for a body without a declared length. -/
def onBodyUntilClose (conf : Conf) (w : Receiving) : RecvEvent → Receiving ⊕ BodyEnd
  | .error e =>
    if e = .eintr then .inl { w with errno := e } else .inr (.exit .closed { w with errno := e })
  | .data bs =>
    if bs = [] then
      if w.errno = .eintr then .inl w else .inr (.exit .done w)
    else
      match w.cur.recv w.heap bs with
      | .error s => .inr (.stop s)
      | .ok (cur, h) => growBody conf { w with cur := cur, heap := h, len := w.len + bs.length }

/-- The bytes the head left unread, in the header buffer. -/
def Heap.unreadBody (h : Heap) : BodyBuf :=
  let b := h.buf h.headerBuf
  ⟨h.headerBuf, b.pos, b.last, b.end_⟩

/-- The state in which a receive loop starts. -/
def receivingOf (b : BodyBuf) (h : Heap) (errno : Errno) : Receiving :=
  ⟨b, h, errno, (b.last : Int) - b.pos⟩

/-- The loop for a body without a declared length. -/
def untilCloseLoop (conf : Conf) (h : Heap) (errno : Errno) :
    List RecvEvent → (Receiving ⊕ BodyEnd) × List RecvEvent :=
  Feed.feed (onBodyUntilClose conf) (growBody conf (receivingOf h.unreadBody h errno))

/-! ## A body of declared length -/

/-- The head of the loop: all bytes are there, or more are needed. -/
def checkBody (contentLen : Int) (w : Receiving) : Receiving ⊕ BodyEnd :=
  if contentLen ≤ w.len then .inr (.exit .done w) else .inl w

/-- One `recv` of the loop for a body of declared length. -/
def onBodyOfLength (contentLen : Int) (w : Receiving) : RecvEvent → Receiving ⊕ BodyEnd
  | .error e =>
    if e = .eintr then .inl { w with errno := e } else .inr (.exit .closed { w with errno := e })
  | .data bs =>
    if bs = [] then
      if w.errno = .eintr then .inl w else .inr (.exit .closed w)
    else
      match w.cur.recv w.heap bs with
      | .error s => .inr (.stop s)
      | .ok (cur, h) =>
        let w := { w with cur := cur, heap := h, len := w.len + bs.length }
        if w.len < contentLen ∧ cur.end_ = cur.last then .inr (.stop .assert)
        else checkBody contentLen w

/-- The buffer for a body of declared length: the rest of the header buffer, when
    the body fits behind the head. -/
def bodyBufOf (h : Heap) (contentLen : Nat) : Except Stop (Option (BodyBuf × Heap)) :=
  let b := h.buf h.headerBuf
  if (b.end_ : Int) - b.pos < contentLen then
    h.bodyCreate contentLen ((b.mem.drop b.pos).take (b.last - b.pos))
  else .ok (some (h.unreadBody, h))

/-- The buffer is there, and the first look at what is in it. -/
def startOfLength (contentLen : Nat) (h : Heap) (errno : Errno) : Receiving ⊕ BodyEnd :=
  match bodyBufOf h contentLen with
  | .error s => .inr (.stop s)
  | .ok none => .inr (.exit .noMemory (receivingOf h.unreadBody h errno))
  | .ok (some (b, h)) => checkBody contentLen (receivingOf b h errno)

/-- The loop for a body of declared length. -/
def ofLengthLoop (contentLen : Nat) (h : Heap) (errno : Errno) :
    List RecvEvent → (Receiving ⊕ BodyEnd) × List RecvEvent :=
  Feed.feed (onBodyOfLength contentLen) (startOfLength contentLen h errno)

/-- The receive loop of `http_process_content_body` on the outcomes of `recv`. -/
def bodyLoop (conf : Conf) (contentLen : Int) (h : Heap) (errno : Errno) (es : List RecvEvent) :
    (Receiving ⊕ BodyEnd) × List RecvEvent :=
  if contentLen < 0 then untilCloseLoop conf h errno es
  else ofLengthLoop contentLen.toNat h errno es

/-! ## The function -/

/-- The body a finished loop leaves in the request. -/
def BodyExit.body (e : BodyExit) (old : ContentBody) (w : Receiving) (len : Int) : ContentBody :=
  match e with
  | .done => { old with contentLen := len, content := some w.cur }
  | _ => old

def BodyExit.status (e : BodyExit) (status : Int) : Int :=
  match e with
  | .done => status
  | .badRequest => HTTP_STATUS_BAD_REQUEST
  | .closed => HTTP_STATUS_CLOSE
  | .noMemory => HTTP_STATUS_INTERNAL_SERVER_ERROR

/-- A body without a declared length; `content_len` counts along while it is
    received. -/
def bodyUntilClose (conf : Conf) (phase : Phase) (r : HttpRequest) (io : Io) :
    Outcome (Bool × HttpRequest × Io) :=
  match untilCloseLoop conf r.toHeap io.errno io.recvs with
  | (.inl w, _) => .wait w.heap
  | (.inr (.stop s), _) => .stop s
  | (.inr (.exit e w), recvs) =>
    let old := { r.body phase with contentLen := w.len }
    .ret (decide (e = .done),
      { (r.setBody phase (e.body old w w.len)) with
        toHeap := w.heap, status := e.status r.status },
      { io with errno := w.errno, recvs := recvs })

/-- A body of a declared length that is within the limit. -/
def bodyOfLength (phase : Phase) (contentLen : Nat) (r : HttpRequest) (io : Io) :
    Outcome (Bool × HttpRequest × Io) :=
  match ofLengthLoop contentLen r.toHeap io.errno io.recvs with
  | (.inl w, _) => .wait w.heap
  | (.inr (.stop s), _) => .stop s
  | (.inr (.exit e w), recvs) =>
    if e = .done ∧ 0 ≤ (r.body phase).contentFd then .stop .assert
    else
      .ret (decide (e = .done),
        { (r.setBody phase (e.body (r.body phase) w contentLen)) with
          toHeap := w.heap, status := e.status r.status },
        { io with errno := w.errno, recvs := recvs })

section Ret

variable {conf : Conf} {phase : Phase} {r r' : HttpRequest} {io io' : Io} {ok : Bool}

/-- A body without a declared length that returns does so where its loop ends. -/
theorem bodyUntilClose_ret (h : bodyUntilClose conf phase r io = .ret (ok, r', io')) :
    ∃ e w recvs,
      untilCloseLoop conf r.toHeap io.errno io.recvs = (.inr (.exit e w), recvs) ∧
      ok = decide (e = .done) ∧
      r' = { (r.setBody phase (e.body { r.body phase with contentLen := w.len } w w.len)) with
        toHeap := w.heap, status := e.status r.status } ∧
      io' = { io with errno := w.errno, recvs := recvs } := by
  unfold bodyUntilClose at h
  split at h
  · cases h
  · cases h
  next e w recvs hfeed =>
  cases h
  exact ⟨e, w, recvs, hfeed, rfl, rfl, rfl⟩

/-- A body of a declared length that returns does so where its loop ends. -/
theorem bodyOfLength_ret {n : Nat} (h : bodyOfLength phase n r io = .ret (ok, r', io')) :
    ∃ e w recvs,
      ofLengthLoop n r.toHeap io.errno io.recvs = (.inr (.exit e w), recvs) ∧
      ok = decide (e = .done) ∧
      r' = { (r.setBody phase (e.body (r.body phase) w n)) with
        toHeap := w.heap, status := e.status r.status } ∧
      io' = { io with errno := w.errno, recvs := recvs } := by
  unfold bodyOfLength at h
  split at h
  · cases h
  · cases h
  next e w recvs hfeed =>
  -- the assertion on the descriptor is behind the loop
  split at h
  · cases h
  cases h
  exact ⟨e, w, recvs, hfeed, rfl, rfl, rfl⟩

end Ret

/-- `http_process_content_body`. -/
def httpProcessContentBody (conf : Conf) (phase : Phase) (contentLen : Int) (r : HttpRequest)
    (io : Io) : Outcome (Bool × HttpRequest × Io) :=
  if r.state ≠ .headerLine then .stop .assert
  else
    let r := { r with state := .contentBody }
    if r.method = .head then .ret (true, r, io)
    else if contentLen < 0 then bodyUntilClose conf phase r io
    else if contentLen = 0 then .ret (true, r, io)
    else if contentLen > conf.maxContentLen then
      .ret (false, { r with status := HTTP_STATUS_BAD_REQUEST }, io)
    else bodyOfLength phase contentLen.toNat r io

/-- What it has not received is left for the next one. -/
theorem httpProcessContentBody_suffix {conf : Conf} {phase : Phase} {n : Int}
    {r r' : HttpRequest} {io io' : Io} {ok : Bool}
    (h : httpProcessContentBody conf phase n r io = .ret (ok, r', io')) :
    io'.recvs <:+ io.recvs := by
  simp only [httpProcessContentBody] at h
  split_ifs at h
  · cases h
    exact List.suffix_rfl
  · obtain ⟨e, w, recvs, hfeed, -, -, rfl⟩ := bodyUntilClose_ret h
    have hsuffix := Feed.feed_suffix (onBodyUntilClose conf)
      (growBody conf (receivingOf r.toHeap.unreadBody r.toHeap io.errno)) io.recvs
    rw [show Feed.feed _ _ io.recvs = _ from hfeed] at hsuffix
    exact hsuffix
  · cases h
    exact List.suffix_rfl
  · cases h
    exact List.suffix_rfl
  · obtain ⟨e, w, recvs, hfeed, -, -, rfl⟩ := bodyOfLength_ret h
    have hsuffix := Feed.feed_suffix (onBodyOfLength n.toNat)
      (startOfLength n.toNat r.toHeap io.errno) io.recvs
    rw [show Feed.feed _ _ io.recvs = _ from hfeed] at hsuffix
    exact hsuffix

end XwpServer

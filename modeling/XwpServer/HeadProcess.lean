/-
  XwpServer.HeadProcess

  `http_process_request_line`, `http_process_status_line` and
  `http_process_header_line` on a stream that arrives in pieces.

  As long as the stream fits into the header buffer and its lines are decided from
  their own bytes, each of the three calls returns what its machine comes to on the
  stream.  The pieces that the call does not use, and the received bytes behind the
  line it ends with, are left for the next one.
-/

import XwpServer.HeadStrings

namespace XwpServer

open CString Scan LineParser

/-! ## First lines on requests -/

section Map

variable {σ τ : Type}

def HeadState.map (f : σ → τ) (s : HeadState σ) : HeadState τ := ⟨f s.x, s.done⟩

def HeadResult.map (f : σ → τ) (r : HeadResult σ) : HeadResult τ := ⟨r.ret, f r.x, r.done, r.pos⟩

end Map

namespace HttpRequest

/-- A request in which the head of a phase can be parsed: for the request as
    `http_request_create` makes it, for the response behind the body. -/
def HeadReady (r : HttpRequest) : Phase → Prop
  | .request => r.state = .none ∧ r.toRequestLine = {} ∧ r.headersIn.headers = []
  | .response => r.state = .contentBody ∧ r.headersOut.headers = []

theorem HeadReady.headers {r : HttpRequest} {p : Phase} (h : r.HeadReady p) : r.headers p = [] := by
  cases p with
  | request => exact h.2.2
  | response => exact h.2

def setRequestLine (r : HttpRequest) (l : RequestLine) : HttpRequest :=
  { r with toRequestLine := l }

def setStatus (r : HttpRequest) (s : Int) : HttpRequest := { r with status := s }

end HttpRequest

/-- The state behind the first line. -/
def Phase.firstState : Phase → ProcessState
  | .request => .requestLine
  | .response => .statusLine

/-- The machine of a phase's first line, on a request. -/
def firstLineRun (phase : Phase) (r : HttpRequest) (s : List Byte) :
    Parsed Byte (HeadState HttpRequest) (HeadResult HttpRequest) :=
  match phase with
  | .request =>
    ((requestLineMachine r.bufs.length).run ⟨r.toRequestLine, []⟩ s).map
      (.map r.setRequestLine) (.map r.setRequestLine)
  | .response =>
    (statusLineMachine.run ⟨r.status, []⟩ s).map (.map r.setStatus) (.map r.setStatus)

/-- The heap with a new header buffer of the configured size. -/
abbrev headHeap (conf : Conf) (h : Heap) : Heap :=
  h.newHeaderBuf (headBuf conf.clientHeaderSize [] [] 0)

theorem HeadState.heap_new {σ : Type} (conf : Conf) (h : Heap) (x : σ) :
    (⟨x, []⟩ : HeadState σ).heap (headHeap conf h) h.bufs.length conf.clientHeaderSize []
      = headHeap conf h := by
  simp [HeadState.heap, Heap.setBuf, Heap.newHeaderBuf]

theorem headHeap_length (conf : Conf) (h : Heap) :
    h.bufs.length < (headHeap conf h).bufs.length := by simp [Heap.newHeaderBuf]

theorem Conf.clientHeaderSize_lt_64 (conf : Conf) : conf.clientHeaderSize < 2 ^ 64 := by
  have := conf.clientHeaderSize_lt
  omega

section Pieces

variable {conf : Conf} {phase : Phase} {r : HttpRequest} {io : Io} {ps : List (List Byte)}
  {es : List RecvEvent}

theorem processLines_halt {σ : Type} {M : Machine Byte (HeadState σ) (HeadResult σ)}
    {parse : Nat → Parse σ} {get : HttpRequest → σ} {put : HttpRequest → σ → HttpRequest}
    {h : Heap} {k cap : Nat} {inv : HeadState σ → Prop} (S : Simulates M (parse k) h k inv)
    (hcap : cap < 2 ^ 64) (hk : k < h.bufs.length) (hh : h.headerBuf = k)
    {done u t : List Byte} (hheap : r.toHeap = (HeadState.mk (get r) done).heap h k cap u)
    (hinv : inv ⟨get r, done⟩) (hps : ∀ p ∈ ps, p ≠ [])
    (hfit : done.length + u.length + ps.flatten.length ≤ cap)
    (hio : io.recvs = ps.map .data ++ es) {q : HeadResult σ}
    (hrun : M.run ⟨get r, done⟩ (u ++ ps.flatten) = .halt q t) :
    ∃ t' rest, t = t' ++ rest.flatten ∧ rest <:+ ps ∧
      processLines conf parse get put r io
        = finishLines put r io
          (.inr (.exit q.ret.loopExit q.x (q.heap h k cap t') io.errno),
            rest.map .data ++ es) := by
  obtain ⟨t', rest, ht, hrest, hloop⟩ :=
    recvLoop_pieces_halt S conf io.errno hcap hk hps hinv hfit hrun es
  refine ⟨t', rest, ht, hrest, ?_⟩
  have hbuf : r.headerBuf = k := by
    have : r.toHeap.headerBuf = h.headerBuf := by rw [hheap]; rfl
    exact this.trans hh
  simp only [processLines, hbuf, hio]
  rw [hheap, hloop]

theorem processLines_more {σ : Type} {M : Machine Byte (HeadState σ) (HeadResult σ)}
    {parse : Nat → Parse σ} {get : HttpRequest → σ} {put : HttpRequest → σ → HttpRequest}
    {h : Heap} {k cap : Nat} {inv : HeadState σ → Prop} (S : Simulates M (parse k) h k inv)
    (hcap : cap < 2 ^ 64) (hk : k < h.bufs.length) (hh : h.headerBuf = k)
    {done u u' : List Byte} (hheap : r.toHeap = (HeadState.mk (get r) done).heap h k cap u)
    (hinv : inv ⟨get r, done⟩) (hps : ∀ p ∈ ps, p ≠ [])
    (hfit : done.length + u.length + ps.flatten.length ≤ cap)
    (hio : io.recvs = ps.map .data) {s' : HeadState σ}
    (hrun : M.run ⟨get r, done⟩ (u ++ ps.flatten) = .more s' u') :
    processLines conf parse get put r io
      = finishLines put r io (makeRoom conf k ⟨s'.x, s'.heap h k cap u', io.errno⟩, []) := by
  have hloop := recvLoop_pieces_more S conf io.errno hcap hk hps hinv hfit hrun
  have hbuf : r.headerBuf = k := by
    have : r.toHeap.headerBuf = h.headerBuf := by rw [hheap]; rfl
    exact this.trans hh
  simp only [processLines, hbuf, hio]
  rw [hheap, hloop]

/-- A first line that its machine decides. -/
theorem httpProcessFirstLine_halt (hr : r.HeadReady phase) (hps : ∀ p ∈ ps, p ≠ [])
    (hfit : ps.flatten.length ≤ conf.clientHeaderSize) (hio : io.recvs = ps.map .data ++ es)
    {q : HeadResult HttpRequest} {t : List Byte}
    (hrun : firstLineRun phase r ps.flatten = .halt q t) :
    ∃ t' rest, t = t' ++ rest.flatten ∧ rest <:+ ps ∧
      httpProcessFirstLine conf phase r io
        = .ret (decide (q.ret.loopExit = .done),
            { q.x with
              state := phase.firstState
              status := q.ret.loopExit.status q.x.status
              toHeap := q.heap (headHeap conf r.toHeap) r.bufs.length conf.clientHeaderSize t' },
            { io with recvs := rest.map .data ++ es }) := by
  have hk := headHeap_length conf r.toHeap
  cases phase with
  | request =>
      obtain ⟨hstate, hx, -⟩ := hr
      simp only [firstLineRun, Parsed.map_eq_halt] at hrun
      obtain ⟨q', hrun, rfl⟩ := hrun
      -- the loop is that of `processLines`, on a new header buffer
      obtain ⟨t', rest, ht, hrest, hcall⟩ := @processLines_halt _
        { r with toHeap := headHeap conf r.toHeap, state := .requestLine } _ _ _ _ _ _
        ((·.toRequestLine)) _ _ _ _ _ (simulates_requestLine hk) conf.clientHeaderSize_lt_64 hk rfl
        _ [] _ (HeadState.heap_new conf r.toHeap r.toRequestLine).symm hx hps (by simpa using hfit)
        hio _ hrun
      refine ⟨t', rest, ht, hrest, ?_⟩
      simp only [httpProcessFirstLine, httpProcessRequestLine, hstate, ne_eq, not_true_eq_false,
        if_false, httpAllocClientHeaderBuf_eq]
      exact hcall
  | response =>
      obtain ⟨hstate, -⟩ := hr
      simp only [firstLineRun, Parsed.map_eq_halt] at hrun
      obtain ⟨q', hrun, rfl⟩ := hrun
      obtain ⟨t', rest, ht, hrest, hcall⟩ := @processLines_halt _
        { r with toHeap := headHeap conf r.toHeap, state := .statusLine } _ _ _ _ _ _ ((·.status))
        _ _ _ _ _ (simulates_statusLine hk) conf.clientHeaderSize_lt_64 hk rfl _ [] _
        (HeadState.heap_new conf r.toHeap r.status).symm trivial hps (by simpa using hfit) hio _
        hrun
      refine ⟨t', rest, ht, hrest, ?_⟩
      simp only [httpProcessFirstLine, httpProcessStatusLine, hstate, ne_eq, not_true_eq_false,
        if_false, httpAllocClientHeaderBuf_eq]
      exact hcall

theorem finishLines_makeRoom {σ τ : Type} {put : HttpRequest → σ → HttpRequest}
    {put' : HttpRequest → τ → HttpRequest} {r r' : HttpRequest} {x : σ} {y : τ} {k : Nat}
    {h : Heap} {errno : Errno}
    (hput : ∀ h s, { put r x with toHeap := h, status := s }
      = { put' r' y with toHeap := h, status := s }) :
    finishLines put r io (makeRoom conf k ⟨x, h, errno⟩, es)
      = finishLines put' r' io (makeRoom conf k ⟨y, h, errno⟩, es) := by
  unfold makeRoom
  split
  -- without a larger buffer the status is set, and the record does not matter
  · rcases httpAllocLargeClientHeaderBuf conf h with _ | h'
    · have heq := hput h HTTP_STATUS_INTERNAL_SERVER_ERROR
      exact congrArg (fun q => Outcome.ret
        (false, q, { io with errno := errno, recvs := es })) heq
    · rfl
  · rfl

/-- A first line that is not complete. -/
theorem httpProcessFirstLine_more (hr : r.HeadReady phase) (hps : ∀ p ∈ ps, p ≠ [])
    (hfit : ps.flatten.length ≤ conf.clientHeaderSize) (hio : io.recvs = ps.map .data)
    {s : HeadState HttpRequest} {u : List Byte}
    (hrun : firstLineRun phase r ps.flatten = .more s u) :
    httpProcessFirstLine conf phase r io
      = finishLines (fun _ q => { q with state := phase.firstState }) r io
          (makeRoom conf r.bufs.length
            ⟨s.x, s.heap (headHeap conf r.toHeap) r.bufs.length conf.clientHeaderSize u,
              io.errno⟩, []) := by
  have hk := headHeap_length conf r.toHeap
  cases phase with
  | request =>
      obtain ⟨hstate, hx, -⟩ := hr
      simp only [firstLineRun, Parsed.map_eq_more] at hrun
      obtain ⟨s', hrun, rfl⟩ := hrun
      have hcall := @processLines_more conf
        { r with toHeap := headHeap conf r.toHeap, state := .requestLine } _ _ _ _ _
        ((·.toRequestLine)) (fun r l => { r with toRequestLine := l }) _ _ _ _
        (simulates_requestLine hk) conf.clientHeaderSize_lt_64 hk rfl _ [] _
        (HeadState.heap_new conf r.toHeap r.toRequestLine).symm hx hps (by simpa using hfit) hio _
        hrun
      simp only [httpProcessFirstLine, httpProcessRequestLine, hstate, ne_eq, not_true_eq_false,
        if_false, httpAllocClientHeaderBuf_eq]
      exact hcall.trans (finishLines_makeRoom fun _ _ => rfl)
  | response =>
      obtain ⟨hstate, -⟩ := hr
      simp only [firstLineRun, Parsed.map_eq_more] at hrun
      obtain ⟨s', hrun, rfl⟩ := hrun
      have hcall := @processLines_more conf
        { r with toHeap := headHeap conf r.toHeap, state := .statusLine } _ _ _ _ _ ((·.status))
        (fun r s => { r with status := s }) _ _ _ _ (simulates_statusLine hk)
        conf.clientHeaderSize_lt_64 hk rfl _ [] _ (HeadState.heap_new conf r.toHeap r.status).symm
        trivial hps (by simpa using hfit) hio _ hrun
      simp only [httpProcessFirstLine, httpProcessStatusLine, hstate, ne_eq, not_true_eq_false,
        if_false, httpAllocClientHeaderBuf_eq]
      exact hcall.trans (finishLines_makeRoom fun _ _ => rfl)

/-! ## The header lines -/

@[simp] theorem HttpRequest.setHeaders_toHeap (p : Phase) (hs : List Header) :
    (r.setHeaders p hs).toHeap = r.toHeap := by cases p <;> rfl

@[simp] theorem HttpRequest.setHeaders_status (p : Phase) (hs : List Header) :
    (r.setHeaders p hs).status = r.status := by cases p <;> rfl

@[simp] theorem HttpRequest.setHeaders_toRequestLine (p : Phase) (hs : List Header) :
    (r.setHeaders p hs).toRequestLine = r.toRequestLine := by cases p <;> rfl

@[simp] theorem HttpRequest.headers_setHeaders (p : Phase) (hs : List Header) :
    (r.setHeaders p hs).headers p = hs := by cases p <;> rfl

section HeaderLoop

variable {h : Heap} {k cap : Nat} {done u : List Byte}

/-- A header loop that comes to the end of the head. -/
theorem httpHeaderLoop_halt (hready : r.headerLineReady phase = true) (hcap : cap < 2 ^ 64)
    (hk : k < h.bufs.length) (hh : h.headerBuf = k)
    (hheap : r.toHeap = h.setBuf k (headBuf cap done u done.length))
    (hnames : NamesIn k (r.headers phase) done) (hps : ∀ p ∈ ps, p ≠ [])
    (hfit : done.length + u.length + ps.flatten.length ≤ cap)
    (hio : io.recvs = ps.map .data ++ es) {calls : List SinkCall} {done' t : List Byte}
    (hrun : HeaderRun k done (u ++ ps.flatten) calls done' t) :
    ∃ t' rest, t = t' ++ rest.flatten ∧ rest <:+ ps ∧
      httpHeaderLoop conf phase r io
        = .ret (true,
            { r.setHeaders phase (runCalls httpHeaderSet h k (r.headers phase) calls) with
              state := .headerLine
              toHeap := h.setBuf k (headBuf cap done' t' done'.length) },
            { io with recvs := rest.map .data ++ es }) := by
  obtain ⟨t', rest, ht, hrest, hcall⟩ := @processLines_halt conf { r with state := .headerLine } _
    _ _ _ _ _ ((·.headers phase)) ((·.setHeaders phase)) _ _ _ _
    (simulates_header (localSink_httpHeaderSet hk) hk) hcap hk hh _ u _ hheap
    (by cases phase <;> exact hnames) hps hfit hio _ (HeaderRun.run (s := ⟨_, done⟩) hrun)
  refine ⟨t', rest, ht, hrest, ?_⟩
  simp only [httpHeaderLoop, hready, Bool.not_true, Bool.false_eq_true, if_false, hcall]
  cases phase <;> rfl

/-- The pairs that a header loop hands to `http_header_set`, in their order. -/
def handedPairs (conf : Conf) (r : HttpRequest) (io : Io) : List (Str × Str) :=
  let k := r.headerBuf
  match (recvLoop conf (httpParseHeaderLine noteHeader k) k ⟨[], r.toHeap, io.errno⟩ io.recvs).1 with
  | .inl w => w.x
  | .inr (.exit _ x _ _) => x
  | .inr (.stop _) => []

/-- A header loop that started with an empty table has left it empty if it handed no pair
    on. -/
theorem headers_eq_nil_iff {conf : Conf} {r' : HttpRequest} {io' : Io} {ok : Bool}
    (hnil : r.headers phase = []) (hr : httpHeaderLoop conf phase r io = .ret (ok, r', io')) :
    r'.headers phase = [] ↔ handedPairs conf r io = [] := by
  have hloop := @recvLoop_sinks _ _ httpHeaderSet noteHeader (fun hs ps => hs = [] ↔ ps = [])
    (fun h hs ps name value _ => by
      refine iff_of_false (fun hset => ?_) (by simp [noteHeader])
      cases hs with
      | nil => cases hset
      | cons e es =>
          rw [httpHeaderSet] at hset
          split at hset <;> cases hset) conf r.headerBuf [] [] r.toHeap io.errno
    (iff_of_true rfl rfl) io.recvs
  have hget : HttpRequest.headers { r with state := .headerLine } phase = [] := by
    rw [← hnil]
    cases phase <;> rfl
  simp only [httpHeaderLoop] at hr
  split_ifs at hr
  simp only [processLines, hget] at hr
  simp only [handedPairs]
  generalize recvLoop conf (httpParseHeaderLine httpHeaderSet r.headerBuf) r.headerBuf
    ⟨[], r.toHeap, io.errno⟩ io.recvs = y at hr hloop
  generalize recvLoop conf (httpParseHeaderLine noteHeader r.headerBuf) r.headerBuf
    ⟨[], r.toHeap, io.errno⟩ io.recvs = z at hloop
  obtain ⟨w | s, recvs⟩ := y
  · cases hr
  obtain ⟨w' | s', recvs'⟩ := z
  · cases hloop
  cases hloop with
  | inr hend =>
  cases s with
  | stop s => cases hr
  | exit e x h errno =>
  cases s' with
  | stop s' => cases hend
  | exit e' x' h' errno' =>
  simp only [finishLines, Outcome.ret.injEq, Prod.mk.injEq] at hr
  obtain ⟨-, rfl, -⟩ := hr
  obtain ⟨-, -, -, hx⟩ := hend
  rw [← hx]
  cases phase <;> exact Iff.rfl

theorem handedPairs_halt (hcap : cap < 2 ^ 64) (hk : k < h.bufs.length) (hh : h.headerBuf = k)
    (hheap : r.toHeap = h.setBuf k (headBuf cap done u done.length)) (hps : ∀ p ∈ ps, p ≠ [])
    (hfit : done.length + u.length + ps.flatten.length ≤ cap)
    (hio : io.recvs = ps.map .data ++ es) {calls : List SinkCall} {done' t : List Byte}
    (hrun : HeaderRun k done (u ++ ps.flatten) calls done' t) :
    handedPairs conf r io = calls.map fun c => (c.name, c.value) := by
  obtain ⟨t', rest, -, -, hloop⟩ := recvLoop_pieces_halt (s := ⟨[], done⟩) (u := u)
    (simulates_header (localSink_noteHeader h k) hk) conf io.errno hcap hk hps trivial hfit
    (HeaderRun.run (s := ⟨_, done⟩) hrun) es
  have hbuf : r.headerBuf = k := by
    have : r.toHeap.headerBuf = h.headerBuf := by rw [hheap]; rfl
    exact this.trans hh
  simp only [handedPairs, hbuf, hio]
  rw [hheap]
  simp only [HeadState.heap] at hloop
  rw [hloop]
  simp [runCalls_noteHeader]

/-- A header loop that waits for the end of the head. -/
theorem httpHeaderLoop_more (hready : r.headerLineReady phase = true) (hcap : cap < 2 ^ 64)
    (hk : k < h.bufs.length) (hh : h.headerBuf = k)
    (hheap : r.toHeap = h.setBuf k (headBuf cap done u done.length))
    (hnames : NamesIn k (r.headers phase) done) (hps : ∀ p ∈ ps, p ≠ [])
    (hfit : done.length + u.length + ps.flatten.length ≤ cap)
    (hio : io.recvs = ps.map .data) {s' : HeadState (List Header)} {u' : List Byte}
    (hrun : (headerMachine httpHeaderSet h k).run ⟨r.headers phase, done⟩ (u ++ ps.flatten)
      = .more s' u') :
    httpHeaderLoop conf phase r io
      = finishLines (·.setHeaders phase) { r with state := .headerLine } io
          (makeRoom conf k ⟨s'.x, s'.heap h k cap u', io.errno⟩, []) := by
  have hget : (HttpRequest.headers { r with state := .headerLine } phase) = r.headers phase := by
    cases phase <;> rfl
  have hcall := @processLines_more conf { r with state := .headerLine } _ _ _ _ _
    ((·.headers phase)) ((·.setHeaders phase)) _ _ _ _
    (simulates_header (localSink_httpHeaderSet hk) hk) hcap hk hh _ u _ hheap
    (by rw [hget]; exact hnames) hps hfit hio _ (by rw [hget]; exact hrun)
  simp only [httpHeaderLoop, hready, Bool.not_true, Bool.false_eq_true, if_false, hcall]

end HeaderLoop

end Pieces

end XwpServer

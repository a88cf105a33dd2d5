/-
  XwpServer.FailedExchange

  What a backend exchange leaves behind that does not complete (`upstream_uwsgi_create` and
  `upstream_uwsgi_process` of `module_uwsgi.c`, `connection_special_response` and the end of
  a round in `connection.c`).

  The reply is read into the response itself.  A failure up to the status line leaves
  nothing there, and behind a body that breaks off the connection is closed; but header
  lines stay in the table when a later one fails, and so does the head of a reply whose
  body is refused for its length or for want of a buffer, with the number of the bytes up to
  there (`failedExchange_iff`).
-/

import XwpServer.AbsentFields
import XwpServer.BodyLimit
import XwpServer.Dispatch
import XwpServer.HeaderBuffer
import XwpServer.StatusTables

namespace XwpServer

open CString Round

/-! ## The exchange -/

/-- Where an exchange fails. -/
inductive FailedAt where
  | connect | packet | content | statusLine | headerLines | body
  deriving DecidableEq, Repr

inductive ExchangeEnd where
  | complete (r : HttpRequest)
  | failed (point : FailedAt) (r : HttpRequest)
  deriving DecidableEq, Repr

/-- The body of the reply; what `http_process_content_body` returns is not looked at. -/
def replyBody (conf : Conf) (r : HttpRequest) (io : Io) : Outcome ExchangeEnd :=
  (httpProcessContentBody conf .response r.headersOut.contentLen r io).bind fun (ok, r, _) =>
    .ret (if ok then .complete r else .failed .body r)

def replyLines (conf : Conf) (r : HttpRequest) (io : Io) : Outcome ExchangeEnd :=
  (httpProcessHeaderLine conf .response r io).bind fun (ok, r, io) =>
    if ok then replyBody conf r io else .ret (.failed .headerLines (badGateway r))

def replyStatus (conf : Conf) (r : HttpRequest) (io : Io) : Outcome ExchangeEnd :=
  (httpProcessStatusLine conf r io).bind fun (ok, r, io) =>
    if ok then replyLines conf r io else .ret (.failed .statusLine (badGateway r))

def sendContent (conf : Conf) (content : List Byte) (r : HttpRequest) (io : Io) :
    Outcome ExchangeEnd :=
  if content = [] then replyStatus conf r io
  else
    (nwrite r.toHeap io content).bind fun (ok, io) =>
      if ok then replyStatus conf r io else .ret (.failed .content (badGateway r))

/-- `upstream_uwsgi_create`, and `upstream_uwsgi_process` with its packet and the body of the
    request. -/
def upstreamUwsgiProcess (conf : Conf) (connected : Bool) (packet content : List Byte)
    (r : HttpRequest) (io : Io) : Outcome ExchangeEnd :=
  if connected then
    (nwrite r.toHeap io packet).bind fun (ok, io) =>
      if ok then sendContent conf content r io else .ret (.failed .packet (badGateway r))
  else .ret (.failed .connect (badGateway r))

/-! ## The answer -/

/-- The body `connection_special_response` puts in, in a block of its own. -/
def withPage (r : HttpRequest) (page : List Byte) : HttpRequest :=
  { r with
    bufs := r.bufs ++ [⟨page, 0, page.length, page.length⟩]
    bodyOut := { r.bodyOut with
      contentLen := page.length, content := some ⟨r.bufs.length, 0, page.length, page.length⟩ } }

/-- `connection_special_response`; nothing sets `err_msg`. -/
def connectionSpecialResponse (r : HttpRequest) : Except Stop HttpRequest :=
  if 0 < r.bodyOut.contentLen then .ok r
  else do
    let page ← httpErrorPage r.status none
    let r := match page with
      | some page => withPage r page
      | none => r
    return if HTTP_STATUS_BAD_REQUEST ≤ r.status then { r with keepAlive := false } else r

/-- The end of a round of `connection_run`: the request whose response is sent, if one is. -/
def roundAnswer (r : HttpRequest) : Except Stop (Option HttpRequest) :=
  if r.status = HTTP_STATUS_CLOSE then .ok none
  else if HTTP_STATUS_SPECIAL_RESPONSE ≤ r.status then (connectionSpecialResponse r).map some
  else .ok (some r)

/-! ## What must not be left behind -/

/-- The bytes of `body_out`. -/
def HttpRequest.bodyText (r : HttpRequest) : Option (List Byte) :=
  r.bodyOut.content.map fun b => ((r.buf b.block).mem.drop b.pos).take (b.last - b.pos)

/-- The response is an error of the server's own: no header has been received for it, and its
    body is the page of the status or empty. -/
structure OwnError (r : HttpRequest) : Prop where
  status : HTTP_STATUS_BAD_REQUEST ≤ r.status
  headers : r.headersOut.headers = []
  body : (∃ page, httpErrorPage r.status none = .ok (some page) ∧ r.bodyText = some page ∧
      r.bodyOut.contentLen = page.length) ∨
    r.bodyOut.contentLen = 0 ∧ r.bodyOut.content = none

/-- Nothing is sent, or an error of the server's own. -/
def LeavesNothing (r : HttpRequest) : Prop :=
  ∃ y, roundAnswer r = .ok y ∧ ∀ r', y = some r' → OwnError r'

/-! ## Clean failures -/

/-- The exchange comes to the header lines of the reply, with the request `r₁` and the outcomes
    `io₁` still to come. -/
def ReachesLines (conf : Conf) (connected : Bool) (packet content : List Byte) (r : HttpRequest)
    (io : Io) (r₁ : HttpRequest) (io₁ : Io) : Prop :=
  connected = true ∧ ∃ io₂ io₃, nwrite r.toHeap io packet = .ret (true, io₂) ∧
    (if content = [] then io₃ = io₂ else nwrite r.toHeap io₂ content = .ret (true, io₃)) ∧
    httpProcessStatusLine conf r io₃ = .ret (true, r₁, io₁)

/-- The length that the header lines `pairs` of a reply declare, -1 for none. -/
def Heap.replyLength (h : Heap) (pairs : List (Str × Str)) : Int :=
  match (h.headerPuts "Content-Length" pairs).getLast? with
  | none => -1
  | some value => atoi (h.str value.data)

/-- The body of a reply with the length `n` is refused: it is above the limit, or there is no
    buffer for it. -/
def BodyRefused (conf : Conf) (n : Int) (r : HttpRequest) (io : Io) : Prop :=
  if n < 0 then ∃ d, Outgrown conf r io d else conf.maxContentLen < n ∨ ¬ r.toHeap.GrantsBody n

/-- A body that is refused is so in front of its first byte. -/
def BodyUncounted (conf : Conf) (n : Int) (r : HttpRequest) : Prop :=
  n < 0 → r.toHeap.space = 0 ∧ (conf.maxContentLen < 0 ∨ BufRefused (allocBufLen conf 0))

/-- A reply that is not read to its end hands no header line on, and does not come to a byte of
    a body that is refused; or its body is not refused, but breaks off. -/
def CleanReply (conf : Conf) (r₁ : HttpRequest) (io₁ : Io) : Prop :=
  match httpProcessHeaderLine conf .response r₁ io₁ with
  | .ret (true, r₂, io₂) =>
    let n := r₂.toHeap.replyLength (handedPairs conf r₁ io₁)
    ¬ BodyRefused conf n r₂ io₂ ∨ (handedPairs conf r₁ io₁ = [] ∧ BodyUncounted conf n r₂)
  | _ => handedPairs conf r₁ io₁ = []

/-- An exchange that fails in front of the header lines, or whose reply is clean. -/
def CleanFailure (conf : Conf) (connected : Bool) (packet content : List Byte) (r : HttpRequest)
    (io : Io) : Prop :=
  ∀ r₁ io₁, ReachesLines conf connected packet content r io r₁ io₁ → CleanReply conf r₁ io₁

/-! ## What the readers keep -/

/-- What neither the parser nor the end of its loop writes to. -/
theorem processLines_keep {σ α : Type} {conf : Conf} {parse : Nat → Parse σ}
    {get : HttpRequest → σ} {put : HttpRequest → σ → HttpRequest} {r r' : HttpRequest}
    {io io' : Io} {ok : Bool} (h : processLines conf parse get put r io = .ret (ok, r', io'))
    (f : HttpRequest → α) (hf : ∀ q x h s, f { put q x with toHeap := h, status := s } = f q) :
    f r' = f r := by
  simp only [processLines] at h
  rcases hl : recvLoop conf (parse r.headerBuf) r.headerBuf ⟨get r, r.toHeap, io.errno⟩ io.recvs
    with ⟨w | ⟨e, x, heap, errno⟩ | s, rest⟩ <;> rw [hl] at h
  · cases h
  · simp only [finishLines, Outcome.ret.injEq, Prod.mk.injEq] at h
    obtain ⟨-, rfl, -⟩ := h
    exact hf r x heap _
  · cases h

theorem httpProcessStatusLine_keep {conf : Conf} {r r' : HttpRequest} {io io' : Io} {ok : Bool}
    (h : httpProcessStatusLine conf r io = .ret (ok, r', io')) :
    r'.headersOut = r.headersOut ∧ r'.bodyOut = r.bodyOut := by
  unfold httpProcessStatusLine at h
  split at h
  · cases h
  have hkeep := processLines_keep h (fun q => (q.headersOut, q.bodyOut)) fun _ _ _ _ => rfl
  exact Prod.mk.inj hkeep

theorem httpProcessHeaderLine_keep {conf : Conf} {r r' : HttpRequest} {io io' : Io} {ok : Bool}
    (h : httpProcessHeaderLine conf .response r io = .ret (ok, r', io')) :
    r'.bodyOut = r.bodyOut := by
  obtain ⟨⟨okLoop, q, ioLoop⟩, hloop, hdone⟩ := Outcome.bind_eq_ret.mp h
  unfold httpHeaderLoop at hloop
  split at hloop
  · cases hloop
  have hkeep := processLines_keep hloop (·.bodyOut) fun _ _ _ _ => rfl
  cases okLoop with
  | false =>
      cases hdone
      exact hkeep
  | true =>
      obtain ⟨-, -, n, -, rfl⟩ := headersDone_response hdone
      exact hkeep

/-- The length in the response is the one that the header lines declare. -/
theorem contentLen_of_reply {conf : Conf} {r₀ r₁ r₂ : HttpRequest} {io₀ io₁ io₂ : Io}
    (hr : r₀.HeadReady .response)
    (hline : httpProcessStatusLine conf r₀ io₀ = .ret (true, r₁, io₁))
    (hlines : httpProcessHeaderLine conf .response r₁ io₁ = .ret (true, r₂, io₂)) :
    r₂.headersOut.contentLen = r₂.toHeap.replyLength (handedPairs conf r₁ io₁) := by
  obtain ⟨q, io', hloop, hdone⟩ := httpProcessHeaderLine_accepted hlines
  obtain ⟨htable, -, hnames⟩ := @headTable conf .response _ _ _ _ _ _ hr hline hloop
  obtain ⟨-, -, n, hn, rfl⟩ := headersDone_response hdone
  have hends := keyed_ends (h := q.toHeap) fun p hp => by
    obtain ⟨off, hoff, -, hlen⟩ := hnames p hp
    exact ⟨_, off, hoff, hlen⟩
  have hheaders : q.headersOut.headers = setAll q.toHeap (handedPairs conf r₁ io₁) := htable
  rw [httpHeaderInt, hheaders, httpHeaderStr_setAll (by decide) hends] at hn
  show n = q.toHeap.replyLength (handedPairs conf r₁ io₁)
  unfold Heap.replyLength
  cases hvalue : (q.headerPuts "Content-Length" (handedPairs conf r₁ io₁)).getLast? with
  | none =>
      rw [hvalue] at hn
      exact (Option.some.inj hn).symm
  | some value =>
      rw [hvalue] at hn
      obtain ⟨v, hv, rfl⟩ := Option.map_eq_some_iff.mp hn
      show atoi v = atoi (q.str value.data)
      rw [Heap.str, hv]
      rfl

/-- A header buffer without space is where a refused body has counted nothing. -/
theorem outgrown_le_zero_iff {conf : Conf} {r : HttpRequest} {io : Io} {d n : Int} (hn : n < 0)
    (hbuf : (r.buf r.headerBuf).Valid) (hd : Outgrown conf r io d) :
    d ≤ 0 ↔ BodyUncounted conf n r := by
  obtain ⟨hreach, -, hend⟩ := hd
  have hspace : 0 ≤ r.toHeap.space ∧ r.toHeap.space < 2 ^ 31 := by
    have := hbuf.end_lt
    unfold Heap.space
    omega
  have hle := hreach.le hspace.1 hspace.2
  constructor
  · intro h0 _
    obtain rfl : d = 0 := by omega
    exact ⟨by omega, hend⟩
  · intro h
    obtain ⟨hzero, hcond⟩ := h hn
    rw [hzero] at hreach
    -- the first buffer is not replaced
    rcases hreach.step with rfl | ⟨hmax, hgrant, -⟩
    · exact le_refl _
    · rcases hcond with hcond | hcond
      · omega
      · exact absurd hcond hgrant

/-- A body that is not read and gets no answer of its own: nothing has been put into the
    response. -/
theorem httpProcessContentBody_failed {conf : Conf} {n : Int} {r r' : HttpRequest} {io io' : Io}
    (hcontent : r.bodyOut.content = none)
    (h : httpProcessContentBody conf .response n r io = .ret (false, r', io')) :
    r'.bodyOut.content = none ∧ r'.headersOut = r.headersOut := by
  have hexit : ∀ (e : BodyExit) (old : ContentBody) (w : Receiving) (len : Int),
      old.content = none → decide (e = .done) = false → (e.body old w len).content = none := by
    intro e old w len hold he
    cases e with
    | done => cases he
    | badRequest => exact hold
    | closed => exact hold
    | noMemory => exact hold
  refine ⟨?_, (httpProcessContentBody_keeps h).2.2.2⟩
  simp only [httpProcessContentBody] at h
  split_ifs at h
  · cases h
  · obtain ⟨e, w, recvs, -, he, rfl, -⟩ := bodyUntilClose_ret h
    exact hexit e _ w _ hcontent he.symm
  · cases h
  · cases h
    exact hcontent
  · obtain ⟨e, w, recvs, -, he, rfl, -⟩ := bodyOfLength_ret h
    exact hexit e _ w _ hcontent he.symm

/-- The statuses of a body that is refused. -/
def RefusedStatus (status : Int) : Prop :=
  status = HTTP_STATUS_BAD_REQUEST ∨ status = HTTP_STATUS_INTERNAL_SERVER_ERROR

/-- A body that fails breaks off, or is refused: with no byte counted where the first one
    would not have been, too. -/
theorem httpProcessContentBody_refused {conf : Conf} {n : Int} {r r' : HttpRequest} {io io' : Io}
    (hbody : r.bodyOut = {}) (hk : r.headerBuf < r.bufs.length)
    (hbuf : (r.buf r.headerBuf).Valid)
    (h : httpProcessContentBody conf .response n r io = .ret (false, r', io')) :
    (r'.status = HTTP_STATUS_CLOSE ∧ ¬ BodyRefused conf n r io) ∨
      (RefusedStatus r'.status ∧ BodyRefused conf n r io ∧
        (r'.bodyOut.contentLen ≤ 0 ↔ BodyUncounted conf n r)) := by
  have hstate : r.state = .headerLine := by
    by_contra hstate
    rw [httpProcessContentBody, if_pos hstate] at h
    cases h
  have hhead : r.method ≠ .head := by
    intro hhead
    simp only [httpProcessContentBody, hstate, hhead, ne_eq, not_true_eq_false, if_false, if_true]
      at h
    cases h
  unfold BodyRefused
  rcases Int.lt_trichotomy n 0 with hn | rfl | hn
  · rw [if_pos hn]
    rw [httpProcessContentBody_untilClose hstate hhead hn] at h
    rcases bodyUntilClose_failed (r := { r with state := .contentBody }) hk hbuf h with
      ⟨hstatus, hno⟩ | ⟨hstatus, hout⟩
    · exact .inl ⟨hstatus, not_exists.mpr hno⟩
    · exact .inr ⟨hstatus, ⟨_, hout⟩, outgrown_le_zero_iff (r := r) hn hbuf hout⟩
  · rw [httpProcessContentBody_empty hstate hhead] at h
    cases h
  · rw [if_neg (by omega)]
    have huncounted : BodyUncounted conf n r := fun h => by omega
    by_cases hle : n ≤ conf.maxContentLen
    · rw [httpProcessContentBody_ofLength hstate hhead hn hle] at h
      have hnat : ((n.toNat : Nat) : Int) = n := by omega
      by_cases hgrant : r.toHeap.GrantsBody n
      · rw [← hnat] at hgrant
        rcases bodyOfLength_cases (r := { r with state := .contentBody }) hgrant h with
          ⟨hok, -⟩ | ⟨-, hstatus, -⟩
        · cases hok
        · rw [hnat] at hgrant
          exact .inl ⟨hstatus, fun hno => hno.elim (by omega) fun hno => hno hgrant⟩
      · rw [← hnat] at hgrant
        obtain ⟨e, w, recvs, hfeed, -, hr', -⟩ := bodyOfLength_ret h
        rw [ofLengthLoop, startOfLength_refused hgrant, Feed.feed_inr] at hfeed
        cases hfeed
        rw [hnat] at hgrant
        refine .inr ⟨.inr (by rw [hr']; rfl), .inr hgrant, iff_of_true ?_ huncounted⟩
        rw [hr']
        show r.bodyOut.contentLen ≤ 0
        rw [hbody]
    · rw [httpProcessContentBody_tooLarge hstate hhead hn (by omega)] at h
      cases h
      refine .inr ⟨.inl rfl, .inl (by omega), iff_of_true ?_ huncounted⟩
      show r.bodyOut.contentLen ≤ 0
      rw [hbody]

/-! ## The answer to a failed exchange -/

theorem bodyText_withPage (r : HttpRequest) (page : List Byte) :
    (withPage r page).bodyText = some page := by
  simp [HttpRequest.bodyText, withPage, Heap.buf]

/-- An error status with a page, and a response without content. -/
theorem leavesNothing_iff {r : HttpRequest} (hcontent : r.bodyOut.content = none)
    (hstatus : HTTP_STATUS_BAD_REQUEST ≤ r.status) (hclose : r.status ≠ HTTP_STATUS_CLOSE)
    (hpage : ∃ page, httpErrorPage r.status none = .ok (some page)) :
    LeavesNothing r ↔ r.headersOut.headers = [] ∧ r.bodyOut.contentLen ≤ 0 := by
  obtain ⟨page, hpage⟩ := hpage
  have hspecial : HTTP_STATUS_SPECIAL_RESPONSE ≤ r.status :=
    Int.le_trans (by decide) hstatus
  simp only [LeavesNothing, roundAnswer, if_neg hclose, if_pos hspecial, connectionSpecialResponse]
  by_cases hlen : 0 < r.bodyOut.contentLen
  · -- a length without content is left alone
    simp only [if_pos hlen, Except.map]
    constructor
    · rintro ⟨y, hy, hown⟩
      obtain ⟨-, -, hbody⟩ := hown r (Except.ok.inj hy).symm
      rcases hbody with ⟨page', -, htext, -⟩ | ⟨hzero, -⟩
      · rw [HttpRequest.bodyText, hcontent] at htext
        cases htext
      · omega
    · intro h
      omega
  · simp only [if_neg hlen, hpage, bind, Except.bind, pure, Except.pure, Except.map]
    have hstatus' : HTTP_STATUS_BAD_REQUEST ≤ (withPage r page).status := hstatus
    rw [if_pos hstatus']
    constructor
    · rintro ⟨y, hy, hown⟩
      exact ⟨(hown _ (Except.ok.inj hy).symm).headers, by omega⟩
    · rintro ⟨hheaders, -⟩
      refine ⟨_, rfl, fun r' hr' => ?_⟩
      obtain rfl := Option.some.inj hr'
      exact ⟨hstatus, hheaders, .inl ⟨page, hpage, bodyText_withPage r page, rfl⟩⟩

theorem leavesNothing_close {r : HttpRequest} (h : r.status = HTTP_STATUS_CLOSE) :
    LeavesNothing r := by
  refine ⟨none, ?_, fun r' hr' => ?_⟩
  · rw [roundAnswer, if_pos h]
  · cases hr'

/-- The statuses of a failed exchange have a page. -/
theorem exists_errorPage {status : Int}
    (h : status = HTTP_STATUS_BAD_GATEWAY ∨ RefusedStatus status) :
    ∃ page, httpErrorPage status none = .ok (some page) := by
  rcases h with rfl | rfl | rfl
  · exact ⟨_, rfl⟩
  · exact ⟨_, rfl⟩
  · exact ⟨_, rfl⟩

/-- The exchange has failed in front of the body. -/
theorem leavesNothing_badGateway {r : HttpRequest} (hbody : r.bodyOut = {}) :
    LeavesNothing (badGateway r) ↔ r.headersOut.headers = [] := by
  have hcontent : (badGateway r).bodyOut.content = none := by
    show r.bodyOut.content = none
    rw [hbody]
  have hlen : (badGateway r).bodyOut.contentLen ≤ 0 := by
    have hzero : r.bodyOut.contentLen = 0 := by rw [hbody]
    exact Int.le_of_eq hzero
  have hstatus : (badGateway r).status = HTTP_STATUS_BAD_GATEWAY := rfl
  rw [leavesNothing_iff hcontent (by rw [hstatus]; decide) (by rw [hstatus]; decide)
    (exists_errorPage (.inl hstatus))]
  exact and_iff_left hlen

/-! ## Every failure -/

section Failures

variable {conf : Conf} {r r' : HttpRequest} {io : Io} {point : FailedAt}

/-- A reply whose body fails. -/
theorem replyBody_failed {r₀ r₁ r₂ : HttpRequest} {io₀ io₁ io₂ : Io}
    (hr : r₀.HeadReady .response)
    (hline : httpProcessStatusLine conf r₀ io₀ = .ret (true, r₁, io₁))
    (hlines : httpProcessHeaderLine conf .response r₁ io₁ = .ret (true, r₂, io₂))
    (hbody : r₂.bodyOut = {}) (hheaders : r₂.headersOut.headers = [] ↔ handedPairs conf r₁ io₁ = [])
    (h : replyBody conf r₂ io₂ = .ret (.failed point r')) :
    LeavesNothing r' ↔ CleanReply conf r₁ io₁ := by
  obtain ⟨⟨ok, q, io'⟩, hfailed, hend⟩ := Outcome.bind_eq_ret.mp h
  cases ok with
  | true => cases hend
  | false =>
  cases hend
  obtain ⟨q, ioq, hloop, hdone⟩ := httpProcessHeaderLine_accepted hlines
  obtain ⟨hk, hbuf⟩ := @httpHeaderLoop_valid conf .response _ _ _ _ _ _ hr hline hloop
  have hheap : r₂.toHeap = q.toHeap := by
    obtain ⟨-, -, n, -, rfl⟩ := headersDone_response hdone
    rfl
  rw [← hheap] at hk hbuf
  unfold CleanReply
  rw [hlines]
  dsimp only
  rw [← contentLen_of_reply hr hline hlines, ← hheaders]
  obtain ⟨hcontent, hout⟩ := httpProcessContentBody_failed (by rw [hbody]) hfailed
  rcases httpProcessContentBody_refused hbody hk hbuf hfailed with
    ⟨hclose, hno⟩ | ⟨hstatus, hrefused, hcount⟩
  · exact iff_of_true (leavesNothing_close hclose) (.inl hno)
  · have hclose : r'.status ≠ HTTP_STATUS_CLOSE := by
      rcases hstatus with h | h
      · rw [h]
        decide
      · rw [h]
        decide
    have herror : HTTP_STATUS_BAD_REQUEST ≤ r'.status := by
      rcases hstatus with h | h
      · exact Int.le_of_eq h.symm
      · rw [h]
        decide
    rw [leavesNothing_iff hcontent herror hclose (exists_errorPage (.inr hstatus)), hout, hcount]
    exact (or_iff_right (not_not_intro hrefused)).symm

theorem replyLines_failed {r₀ r₁ : HttpRequest} {io₀ io₁ : Io} (hr : r₀.HeadReady .response)
    (hline : httpProcessStatusLine conf r₀ io₀ = .ret (true, r₁, io₁)) (hbody : r₁.bodyOut = {})
    (hheaders : r₁.headersOut.headers = [])
    (h : replyLines conf r₁ io₁ = .ret (.failed point r')) :
    LeavesNothing r' ↔ CleanReply conf r₁ io₁ := by
  obtain ⟨⟨ok, q, io'⟩, hlines, hend⟩ := Outcome.bind_eq_ret.mp h
  have hkeep := httpProcessHeaderLine_keep hlines
  have hpairs : q.headersOut.headers = [] ↔ handedPairs conf r₁ io₁ = [] := by
    obtain ⟨⟨okLoop, q', io''⟩, hloop, hdone⟩ := Outcome.bind_eq_ret.mp hlines
    rw [← @headers_eq_nil_iff .response _ _ _ _ _ _ hheaders hloop]
    cases okLoop with
    | false =>
        cases hdone
        exact Iff.rfl
    | true =>
        obtain ⟨-, -, n, -, rfl⟩ := headersDone_response hdone
        exact Iff.rfl
  cases ok with
  | true => exact replyBody_failed hr hline hlines (hkeep.trans hbody) hpairs hend
  | false =>
      cases hend
      rw [leavesNothing_badGateway (hkeep.trans hbody), hpairs]
      unfold CleanReply
      rw [hlines]

/-- Up to the header lines the table of the response is empty. -/
theorem clean_badGateway (hbody : r.bodyOut = {}) (hheaders : r.headersOut.headers = [])
    {p : Prop} (hp : p) : LeavesNothing (badGateway r) ↔ p :=
  iff_of_true ((leavesNothing_badGateway hbody).mpr hheaders) hp

/-- A failed exchange whose packet and content have been written. -/
theorem replyStatus_failed {io₀ : Io} {packet content : List Byte} (hr : r.HeadReady .response)
    (hbody : r.bodyOut = {})
    (hwritten : ∀ r₁ io₁, ReachesLines conf true packet content r io₀ r₁ io₁ ↔
      httpProcessStatusLine conf r io = .ret (true, r₁, io₁))
    (h : replyStatus conf r io = .ret (.failed point r')) :
    LeavesNothing r' ↔ CleanFailure conf true packet content r io₀ := by
  obtain ⟨⟨ok, q, io'⟩, hline, hend⟩ := Outcome.bind_eq_ret.mp h
  obtain ⟨hout, hkeep⟩ := httpProcessStatusLine_keep hline
  unfold CleanFailure
  simp only [hwritten, hline, Outcome.ret.injEq, Prod.mk.injEq]
  cases ok with
  | true =>
      rw [replyLines_failed hr hline (hkeep.trans hbody) (by rw [hout]; exact hr.headers) hend]
      refine ⟨fun hclean r₁ io₁ hsame => ?_, fun hclean => hclean q io' ⟨rfl, rfl, rfl⟩⟩
      obtain ⟨-, rfl, rfl⟩ := hsame
      exact hclean
  | false =>
      cases hend
      refine clean_badGateway (hkeep.trans hbody) (by rw [hout]; exact hr.headers) ?_
      intro r₁ io₁ hsame
      cases hsame.1

theorem sendContent_failed {io₀ : Io} {packet content : List Byte} (hr : r.HeadReady .response)
    (hbody : r.bodyOut = {}) (hpacket : nwrite r.toHeap io₀ packet = .ret (true, io))
    (h : sendContent conf content r io = .ret (.failed point r')) :
    LeavesNothing r' ↔ CleanFailure conf true packet content r io₀ := by
  unfold sendContent at h
  split at h
  · next hnil =>
    refine replyStatus_failed hr hbody (fun r₁ io₁ => ?_) h
    unfold ReachesLines
    simp only [hpacket, hnil, if_true, Outcome.ret.injEq, Prod.mk.injEq, true_and]
    refine ⟨?_, fun hline => ⟨io, io, rfl, rfl, hline⟩⟩
    rintro ⟨_, _, rfl, rfl, hline⟩
    exact hline
  next hne =>
  obtain ⟨⟨ok, io'⟩, hcontent, hend⟩ := Outcome.bind_eq_ret.mp h
  cases ok with
  | true =>
      refine replyStatus_failed hr hbody (fun r₁ io₁ => ?_) hend
      unfold ReachesLines
      simp only [hpacket, hne, if_false, Outcome.ret.injEq, Prod.mk.injEq, true_and]
      refine ⟨?_, fun hline => ⟨io, io', rfl, hcontent, hline⟩⟩
      rintro ⟨_, io₃, rfl, hsent, hline⟩
      rw [hcontent, Outcome.ret.injEq, Prod.mk.injEq] at hsent
      exact hsent.2 ▸ hline
  | false =>
      cases hend
      refine clean_badGateway hbody hr.headers ?_
      rintro r₁ io₁ ⟨-, io₂, io₃, hsent, hrest, -⟩
      rw [hpacket, Outcome.ret.injEq, Prod.mk.injEq] at hsent
      rw [if_neg hne, ← hsent.2, hcontent] at hrest
      cases hrest

/-- A failed exchange leaves nothing behind just when it fails in front of the header lines,
    or the reply is clean. -/
theorem failedExchange_iff {connected : Bool} {packet content : List Byte}
    (hr : r.HeadReady .response) (hbody : r.bodyOut = {})
    (h : upstreamUwsgiProcess conf connected packet content r io = .ret (.failed point r')) :
    LeavesNothing r' ↔ CleanFailure conf connected packet content r io := by
  unfold upstreamUwsgiProcess at h
  split at h
  case isFalse hno =>
    cases h
    refine clean_badGateway hbody hr.headers ?_
    rintro r₁ io₁ ⟨hyes, -⟩
    exact absurd hyes hno
  case isTrue hyes =>
  subst hyes
  obtain ⟨⟨ok, io'⟩, hpacket, hend⟩ := Outcome.bind_eq_ret.mp h
  cases ok with
  | true => exact sendContent_failed hr hbody hpacket hend
  | false =>
      cases hend
      refine clean_badGateway hbody hr.headers ?_
      rintro r₁ io₁ ⟨-, io₂, io₃, hsent, -⟩
      rw [hpacket] at hsent
      cases hsent

end Failures

/-! ## Two backends -/

/-- A request in front of its backend, which takes the packet of one byte and answers with `s`
    before it closes. -/
def exchanged (s : List Byte) : Outcome ExchangeEnd :=
  upstreamUwsgiProcess exampleConf true [0] [] { state := .contentBody }
    { recvs := [.data s, .data []], sends := [.sent 1] }

/-- The point and the status of a failed exchange, the number of headers it leaves in the
    response, and whether that has content. -/
def ExchangeEnd.facts : Outcome ExchangeEnd → Option (FailedAt × Int × Nat × Bool)
  | .ret (.failed point r) =>
    some (point, r.status, r.headersOut.headers.length, r.bodyOut.content.isSome)
  | _ => none

theorem ExchangeEnd.of_facts {x : Outcome ExchangeEnd} {point : FailedAt} {status : Int} {n : Nat}
    {b : Bool} (h : ExchangeEnd.facts x = some (point, status, n, b)) :
    ∃ r, x = .ret (.failed point r) ∧ r.status = status ∧ r.headersOut.headers.length = n ∧
      r.bodyOut.content.isSome = b := by
  unfold ExchangeEnd.facts at h
  split at h
  · next point' r =>
    cases h
    exact ⟨r, rfl, rfl, rfl, rfl⟩
  · cases h

/-- A status line that is malformed. -/
theorem failedExchange_statusLine :
    ∃ r, exchanged (bytes "hello\n") = .ret (.failed .statusLine r) ∧ LeavesNothing r := by
  have hfacts : ExchangeEnd.facts (exchanged (bytes "hello\n"))
      = some (.statusLine, 502, 0, false) := by decide
  obtain ⟨r, hr, -⟩ := ExchangeEnd.of_facts hfacts
  have hready : HttpRequest.HeadReady { state := .contentBody } .response := ⟨rfl, rfl⟩
  refine ⟨r, hr, (failedExchange_iff hready rfl hr).mpr ?_⟩
  -- the header lines are not reached
  rintro r₁ io₁ ⟨-, io₂, io₃, hsent, hsame, hline⟩
  cases hsent
  obtain rfl := hsame
  obtain ⟨x, hx⟩ : ∃ x, httpProcessStatusLine exampleConf { state := .contentBody }
      { recvs := [.data (bytes "hello\n"), .data []], sends := [], sent := [0] } = .ret (false, x) :=
    ⟨_, rfl⟩
  cases hx.symm.trans hline

/-- A reply that breaks off behind its first header line: the client gets the header. -/
theorem not_leavesNothing :
    ¬ ∀ (conf : Conf) (connected : Bool) (packet content : List Byte) (r r' : HttpRequest) (io : Io)
        (point : FailedAt), r.HeadReady .response → r.bodyOut = {} →
      upstreamUwsgiProcess conf connected packet content r io = .ret (.failed point r') →
      LeavesNothing r' := by
  intro h
  have hfacts : ExchangeEnd.facts (exchanged (bytes "HTTP/1.0 200 OK\nSet-Cookie: a\n"))
      = some (.headerLines, 502, 1, false) := by decide
  obtain ⟨r', hr', hstatus, hcount, hcontent⟩ := ExchangeEnd.of_facts hfacts
  have hready : HttpRequest.HeadReady { state := .contentBody } .response := ⟨rfl, rfl⟩
  have hclean := h _ _ _ _ _ r' _ _ hready rfl hr'
  have hnone : r'.bodyOut.content = none := by simpa using hcontent
  rw [leavesNothing_iff hnone (by rw [hstatus]; decide) (by rw [hstatus]; decide)
    (exists_errorPage (.inl hstatus))] at hclean
  rw [hclean.1] at hcount
  cases hcount

end XwpServer
